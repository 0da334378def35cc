/-
# A pool of bufferlists

`Strings` is what a pool of lists is for: each list is a byte string, and so
is each pointer that a caller holds; `abs` is what a pool stands for.

Raw buffers are shared; only the bytes behind the end of a list's append buffer
are ever written, and `WF` says that nobody points at them. This module says
what keeps a pool well formed: other nodes for a list, a new raw buffer, and
bytes put into an append buffer.
-/
import Ceph.Include.Buffer

namespace Ceph
namespace Buffer

open List Function
open Wire (Bytes)

variable {n : ℕ}

/-! ### Byte strings -/

/-- A pool as its callers see it. -/
@[ext]
structure Strings (n : ℕ) where
  lists : Fin n → Bytes
  held : List Bytes

namespace Strings

def set (a : Strings n) (i : Fin n) (b : Bytes) : Strings n := { a with lists := Function.update a.lists i b }

/-- List `i` is `b`, unless that is too long. -/
def setSmall (a : Strings n) (i : Fin n) (b : Bytes) : Option (Strings n) :=
  if b.length < 2 ^ 32 then some (a.set i b) else none

/-- No list is too long for an `unsigned`. -/
def Small (a : Strings n) : Prop := ∀ i, (a.lists i).length < 2 ^ 32

end Strings

/-! ### Bytes of a raw buffer -/

theorem u32_eq {k : ℕ} (h : k < 2 ^ 32) : u32 k = k := Nat.mod_eq_of_lt h

theorem usub_eq {a b : ℕ} (hb : b ≤ a) (ha : a < 2 ^ 32) : usub a b = a - b := by
  have h : 2 ^ 32 + a - b = a - b + 2 ^ 32 := by omega
  rw [usub, u32, h, Nat.add_mod_right, Nat.mod_eq_of_lt (by omega)]

theorem u32_add_u32 (a b : ℕ) : u32 (u32 a + b) = u32 (a + b) := Nat.mod_add_mod a (2 ^ 32) b

theorem usub_u32 {a b : ℕ} (hb : b ≤ a) (hb' : b < 2 ^ 32) : usub (u32 a) b = u32 (a - b) := by
  simp only [usub, u32]
  omega

section patch

variable {b d : Bytes} {pos : ℕ}

theorem length_patch (h : pos + d.length ≤ b.length) : (patch b pos d).length = b.length := by
  simp only [patch, length_append, length_take, length_drop]
  omega

theorem take_patch {k : ℕ} (h : pos ≤ b.length) (hk : k ≤ pos) : (patch b pos d).take k = b.take k := by
  have hlen : k ≤ (b.take pos).length := by
    rw [length_take]
    omega
  rw [patch, append_assoc, take_append_of_le_length hlen, take_take, min_eq_left hk]

theorem drop_patch (h : pos ≤ b.length) : (patch b pos d).drop pos = d ++ b.drop (pos + d.length) := by
  have hlen : (b.take pos).length = pos := by
    rw [length_take]
    omega
  rw [patch, append_assoc, drop_append_of_le_length (le_of_eq hlen.symm), ← hlen]
  simp

end patch

theorem slice_patch {b d : Bytes} {pos off len : ℕ} (h : pos ≤ b.length) (hk : off + len ≤ pos) :
    ((patch b pos d).drop off).take len = (b.drop off).take len := by
  rw [take_drop, take_drop, take_patch h hk]

/-! ### Well-formed pools -/

namespace State

/-- The append buffer of list `i`. -/
def appendBuffer (s : State n) (i : Fin n) : Ptr := (s.lists i).appendBuffer

/-- A pointer that somebody has. -/
def Live (s : State n) (p : Ptr) : Prop := (∃ i, ∃ x ∈ s.nodes i, x.ptr = p) ∨ p ∈ s.held

/-- A pointer stays inside its raw buffer, and, if that is a list's append
buffer, before the bytes that are still unused. -/
structure Good (s : State n) (p : Ptr) : Prop where
  inside : ∃ r b, p.raw = some r ∧ s.raws[r]? = some b ∧ p.off + p.len ≤ b.length
  used : ∀ i r, (s.appendBuffer i).raw = some r → p.raw = some r → p.off + p.len ≤ (s.appendBuffer i).len

end State

open State

/-- The bytes the nodes `xs` count. -/
def total (xs : List Node) : ℕ := (xs.map (·.ptr.len)).sum

/-- A well-formed pool. -/
structure WF (s : State n) : Prop where
  small : ∀ b ∈ s.raws, b.length < 2 ^ 32
  good : ∀ p, s.Live p → s.Good p
  len : ∀ i, s.length i = u32 (total (s.nodes i))
  buffer : ∀ i r, (s.appendBuffer i).raw = some r →
    (s.appendBuffer i).off = 0 ∧ ∃ b, s.raws[r]? = some b ∧ (s.appendBuffer i).len ≤ b.length
  apart : ∀ i j r, (s.appendBuffer i).raw = some r → (s.appendBuffer j).raw = some r → i = j

/-- The byte strings that a pool stands for. -/
def abs (s : State n) : Strings n := ⟨s.content, s.held.map (·.bytes s.raws)⟩

section ptr

variable {s : State n} {p q : Ptr}

theorem data_eq {raws : Raws} {r : ℕ} {b : Bytes} (hr : p.raw = some r) (hb : raws[r]? = some b) :
    p.data raws = b := by
  simp [Ptr.data, hr, hb]

theorem State.Good.length_bytes (h : s.Good p) : (p.bytes s.raws).length = p.len := by
  obtain ⟨r, b, hr, hb, hle⟩ := h.inside
  rw [Ptr.bytes, data_eq hr hb, length_take, length_drop]
  omega

theorem State.Good.shrink (h : s.Good q) (hr : p.raw = q.raw) (hle : p.off + p.len ≤ q.off + q.len) : s.Good p where
  inside := by
    obtain ⟨r, b, hq, hb, hq'⟩ := h.inside
    exact ⟨r, b, hr.trans hq, hb, hle.trans hq'⟩
  used i r hi hp := hle.trans (h.used i r hi (hr ▸ hp))

theorem State.Good.lt (h : s.Good p) (hs : WF s) : p.off + p.len < 2 ^ 32 := by
  obtain ⟨r, b, -, hb, hle⟩ := h.inside
  exact lt_of_le_of_lt hle (hs.small b (mem_of_getElem? hb))

theorem State.Good.isSome (h : s.Good p) : p.raw.isSome := by
  obtain ⟨r, -, hr, -⟩ := h.inside
  rw [hr]
  rfl

/-- `ptr(p, o, l)` of a part that is there. -/
theorem State.Good.sub_eq (h : s.Good p) (hs : WF s) {o l : ℕ} (hle : o + l ≤ p.len) :
    p.sub o l = some ⟨p.raw, p.off + o, l⟩ := by
  have hlt := h.lt hs
  have h1 : u32 (o + l) = o + l := u32_eq (by omega)
  have h2 : u32 (p.off + o) = p.off + o := u32_eq (by omega)
  rw [Ptr.sub, h1, h2, if_pos ⟨hle, h.isSome⟩]

theorem State.Good.sub (h : s.Good p) {o l : ℕ} (hle : o + l ≤ p.len) : s.Good ⟨p.raw, p.off + o, l⟩ :=
  h.shrink rfl (by simp only; omega)

theorem bytes_sub (raws : Raws) {o l : ℕ} (hle : o + l ≤ p.len) :
    Ptr.bytes raws ⟨p.raw, p.off + o, l⟩ = ((p.bytes raws).drop o).take l := by
  simp only [Ptr.bytes, Ptr.data]
  rw [drop_take, drop_drop, take_take, min_eq_left (by omega)]

theorem bytes_extend (raws : Raws) (hr : p.raw = q.raw) (he : p.off + p.len = q.off) :
    Ptr.bytes raws ⟨p.raw, p.off, p.len + q.len⟩ = p.bytes raws ++ q.bytes raws := by
  have hd : p.data raws = q.data raws := by simp only [Ptr.data, hr]
  simp only [Ptr.bytes, ← hd, ← he]
  rw [show Ptr.data raws ⟨p.raw, p.off, p.len + q.len⟩ = p.data raws from rfl, take_add, drop_drop]

end ptr

/-! ### Nodes -/

/-- The bytes the nodes `xs` point at. -/
def bytesOf (raws : Raws) (xs : List Node) : Bytes := xs.flatMap (·.ptr.bytes raws)

@[simp] theorem bytesOf_nil (raws : Raws) : bytesOf raws [] = [] := rfl

@[simp] theorem bytesOf_cons (raws : Raws) (x : Node) (xs : List Node) :
    bytesOf raws (x :: xs) = x.ptr.bytes raws ++ bytesOf raws xs := flatMap_cons

@[simp] theorem bytesOf_append (raws : Raws) (xs ys : List Node) :
    bytesOf raws (xs ++ ys) = bytesOf raws xs ++ bytesOf raws ys := flatMap_append

@[simp] theorem total_nil : total [] = 0 := rfl

@[simp] theorem total_cons (x : Node) (xs : List Node) : total (x :: xs) = x.ptr.len + total xs := by
  simp [total]

@[simp] theorem total_append (xs ys : List Node) : total (xs ++ ys) = total xs + total ys := by
  simp [total]

/-- The pointers of some nodes are all good. -/
def State.GoodNodes (s : State n) (xs : List Node) : Prop := ∀ x ∈ xs, s.Good x.ptr

variable {s : State n} {xs : List Node}

theorem State.GoodNodes.cons {x : Node} (hx : s.Good x.ptr) (h : s.GoodNodes xs) :
    s.GoodNodes (x :: xs) := forall_mem_cons.mpr ⟨hx, h⟩

variable {ys : List Node}

theorem State.GoodNodes.append (hx : s.GoodNodes xs) (hy : s.GoodNodes ys) :
    s.GoodNodes (xs ++ ys) := forall_mem_append.mpr ⟨hx, hy⟩

theorem length_bytesOf : ∀ xs : List Node, s.GoodNodes xs → (bytesOf s.raws xs).length = total xs
  | [], _ => rfl
  | x :: xs, h => by
    have hx := (h x mem_cons_self).length_bytes
    have hxs := length_bytesOf xs fun y hy => h y (mem_cons_of_mem x hy)
    rw [bytesOf_cons, length_append, hx, hxs, total_cons]

theorem WF.goodNodes (h : WF s) (i : Fin n) : s.GoodNodes (s.nodes i) :=
  fun x hx => h.good x.ptr (.inl ⟨i, x, hx, rfl⟩)

theorem WF.split (h : WF s) {i : Fin n} (hnodes : s.nodes i = xs ++ ys) :
    s.GoodNodes xs ∧ s.GoodNodes ys := forall_mem_append.mp (hnodes ▸ h.goodNodes i)

theorem content_eq (s : State n) (i : Fin n) : s.content i = bytesOf s.raws (s.nodes i) := rfl

theorem WF.length_content (h : WF s) (i : Fin n) : (s.content i).length = total (s.nodes i) :=
  length_bytesOf _ (h.goodNodes i)

/-- `length()` is the number of bytes, below 2^32. -/
theorem WF.length_eq (h : WF s) (hs : (abs s).Small) (i : Fin n) :
    s.length i = (s.content i).length := by
  have hlt : (s.content i).length < 2 ^ 32 := hs i
  rw [h.length_content i] at hlt ⊢
  rw [h.len i, u32_eq hlt]

theorem bytesOf_mkNodes (raws : Raws) : ∀ (ps : List Ptr) (id : ℕ),
    bytesOf raws (mkNodes id ps) = ps.flatMap (·.bytes raws)
  | [], _ => rfl
  | p :: ps, id => by
    rw [mkNodes, bytesOf_cons, bytesOf_mkNodes raws ps, flatMap_cons]

theorem total_mkNodes : ∀ (ps : List Ptr) (id : ℕ), total (mkNodes id ps) = (ps.map (·.len)).sum
  | [], _ => rfl
  | p :: ps, id => by rw [mkNodes, total_cons, total_mkNodes ps, map_cons, sum_cons]

theorem goodNodes_mkNodes : ∀ {ps : List Ptr} {id : ℕ}, (∀ p ∈ ps, s.Good p) →
    s.GoodNodes (mkNodes id ps)
  | [], _, _ => nofun
  | p :: _, _, h =>
    (goodNodes_mkNodes fun q hq => h q (mem_cons_of_mem p hq)).cons (h p mem_cons_self)

/-- `append(ptr, off, len)`: whether or not the last node is extended, the part
is behind the rest. -/
theorem pushRange_spec (hs : WF s) (hx : s.GoodNodes xs) {p : Ptr} (hp : s.Good p)
    {off len : ℕ} (hle : off + len ≤ p.len) (id : ℕ) :
    ∃ ys, pushRange id xs p off len = some ys ∧ s.GoodNodes ys ∧
      bytesOf s.raws ys = bytesOf s.raws xs ++ ((p.bytes s.raws).drop off).take len ∧
      total ys = total xs + len := by
  have hlt := hp.lt hs
  have hsub := hp.sub_eq hs hle
  have hguard : u32 (len + off) ≤ p.len := by
    rw [u32_eq (by omega)]
    omega
  have hnew : s.GoodNodes (xs ++ [⟨id, ⟨p.raw, p.off + off, len⟩⟩]) ∧
      bytesOf s.raws (xs ++ [⟨id, ⟨p.raw, p.off + off, len⟩⟩]) =
        bytesOf s.raws xs ++ ((p.bytes s.raws).drop off).take len ∧
      total (xs ++ [⟨id, ⟨p.raw, p.off + off, len⟩⟩]) = total xs + len := by
    refine ⟨hx.append (State.GoodNodes.cons (hp.sub hle) nofun), ?_, by simp⟩
    rw [bytesOf_append, bytesOf_cons, bytesOf_nil, append_nil, bytes_sub s.raws hle]
  rw [pushRange, if_pos hguard]
  cases hlast : xs.getLast? with
  | none => exact ⟨_, by rw [hsub]; rfl, hnew⟩
  | some b =>
    simp only
    by_cases hc : b.ptr.raw = p.raw ∧ b.ptr.stop = u32 (p.off + off)
    · -- the last node is extended
      rw [if_pos hc]
      obtain ⟨ys, rfl⟩ : ∃ ys, xs = ys ++ [b] := getLast?_eq_some_iff.mp hlast
      have hb : s.Good b.ptr := hx b (mem_append_right _ mem_cons_self)
      have hblt := hb.lt hs
      have hend : b.ptr.off + b.ptr.len = p.off + off := by
        have h2 := hc.2
        rwa [Ptr.stop, u32_eq hblt, u32_eq (by omega)] at h2
      have hlen : u32 (b.ptr.len + len) = b.ptr.len + len := u32_eq (by omega)
      have hys : s.GoodNodes ys := fun y hy => hx y (mem_append_left _ hy)
      refine ⟨_, rfl, ?_, ?_, ?_⟩
      · rw [dropLast_concat]
        refine hys.append (State.GoodNodes.cons ?_ nofun)
        refine hp.shrink hc.1 ?_
        simp only [hlen]
        omega
      · have hext := bytes_extend (p := b.ptr) (q := ⟨p.raw, p.off + off, len⟩) s.raws hc.1 hend
        rw [dropLast_concat, bytesOf_append, bytesOf_append, bytesOf_cons, bytesOf_cons, hlen, hext,
          bytes_sub s.raws hle]
        simp
      · rw [dropLast_concat, total_append, total_append, total_cons, total_cons, hlen]
        simp only [total_nil]
        omega
    · rw [if_neg hc]
      exact ⟨_, by rw [hsub]; rfl, hnew⟩

/-! ### What changes a state -/

/-- List `i` with other nodes. -/
def withNodes (s : State n) (i : Fin n) (xs : List Node) (len next : ℕ) : State n :=
  { s.set i { s.lists i with nodes := xs, len := len } with next := next }

section withNodes

variable {s : State n} {i : Fin n} {xs : List Node} {len next : ℕ}

theorem lists_withNodes (s : State n) (i : Fin n) (xs : List Node) (len next : ℕ) (j : Fin n) :
    (withNodes s i xs len next).lists j = if j = i then { s.lists i with nodes := xs, len := len } else s.lists j :=
  update_apply s.lists i _ j

theorem nodes_withNodes_self : (withNodes s i xs len next).nodes i = xs := by
  rw [nodes, lists_withNodes, if_pos rfl]

theorem nodes_withNodes_of_ne {j : Fin n} (h : j ≠ i) : (withNodes s i xs len next).nodes j = s.nodes j := by
  rw [nodes, lists_withNodes, if_neg h, nodes]

theorem appendBuffer_withNodes (j : Fin n) : (withNodes s i xs len next).appendBuffer j = s.appendBuffer j := by
  rw [appendBuffer, lists_withNodes]
  by_cases h : j = i
  · rw [if_pos h, h, appendBuffer]
  · rw [if_neg h, appendBuffer]

theorem good_withNodes {p : Ptr} : (withNodes s i xs len next).Good p ↔ s.Good p := by
  constructor
  · intro h
    exact ⟨h.inside, fun j r hj => by simpa only [appendBuffer_withNodes] using h.used j r (by rwa [appendBuffer_withNodes])⟩
  · intro h
    exact ⟨h.inside, fun j r hj => by simpa only [appendBuffer_withNodes] using h.used j r (by rwa [appendBuffer_withNodes] at hj)⟩

theorem WF.withNodes (h : WF s) (hx : s.GoodNodes xs) (hlen : len = u32 (total xs)) :
    WF (withNodes s i xs len next) where
  small := h.small
  good p hp := by
    rw [good_withNodes]
    rcases hp with ⟨j, x, hx', rfl⟩ | hp
    · by_cases hj : j = i
      · rw [hj, nodes_withNodes_self] at hx'
        exact hx x hx'
      · rw [nodes_withNodes_of_ne hj] at hx'
        exact h.goodNodes j x hx'
    · exact h.good p (.inr hp)
  len j := by
    by_cases hj : j = i
    · rw [hj, nodes_withNodes_self, State.length, lists_withNodes, if_pos rfl]
      exact hlen
    · rw [nodes_withNodes_of_ne hj, State.length, lists_withNodes, if_neg hj]
      exact h.len j
  buffer j r hj := by
    rw [appendBuffer_withNodes] at hj ⊢
    exact h.buffer j r hj
  apart j k r hj hk := by
    rw [appendBuffer_withNodes] at hj hk
    exact h.apart j k r hj hk

theorem abs_withNodes : abs (Buffer.withNodes s i xs len next) = (abs s).set i (bytesOf s.raws xs) := by
  refine Strings.ext ?_ rfl
  funext j
  simp only [abs, Strings.set, update_apply]
  by_cases hj : j = i
  · rw [if_pos hj, hj, content_eq, nodes_withNodes_self]
    rfl
  · rw [if_neg hj, content_eq, nodes_withNodes_of_ne hj]
    rfl

end withNodes

/-- A raw buffer is made. -/
def addRaw (s : State n) (b : Bytes) : State n := { s with raws := s.raws ++ [b] }

section addRaw

variable {s : State n} {b : Bytes}

variable {p : Ptr}

theorem State.Good.addRaw (h : s.Good p) (b : Bytes) : (addRaw s b).Good p where
  inside := by
    obtain ⟨r, c, hr, hc, hle⟩ := h.inside
    exact ⟨r, c, hr, by rw [Buffer.addRaw, getElem?_append_left (List.getElem?_eq_some_iff.mp hc).1, hc], hle⟩
  used := h.used

theorem bytes_addRaw (h : s.Good p) (b : Bytes) : p.bytes (s.raws ++ [b]) = p.bytes s.raws := by
  obtain ⟨r, c, hr, hc, -⟩ := h.inside
  have hc' : (s.raws ++ [b])[r]? = some c := by
    rw [getElem?_append_left (List.getElem?_eq_some_iff.mp hc).1, hc]
  rw [Ptr.bytes, Ptr.bytes, data_eq hr hc, data_eq hr hc']

theorem bytesOf_addRaw (b : Bytes) : ∀ xs : List Node, s.GoodNodes xs → bytesOf (s.raws ++ [b]) xs = bytesOf s.raws xs
  | [], _ => rfl
  | x :: xs, h => by
    rw [bytesOf_cons, bytesOf_cons, bytes_addRaw (h x mem_cons_self) b,
      bytesOf_addRaw b xs fun y hy => h y (mem_cons_of_mem x hy)]

theorem WF.addRaw (h : WF s) (hb : b.length < 2 ^ 32) : WF (addRaw s b) where
  small c hc := by
    rcases mem_append.mp hc with hc | hc
    · exact h.small c hc
    · rwa [mem_singleton.mp hc]
  good p hp := (h.good p hp).addRaw b
  len := h.len
  buffer i r hi := by
    obtain ⟨h0, c, hc, hle⟩ := h.buffer i r hi
    exact ⟨h0, c, by rw [Buffer.addRaw, getElem?_append_left (List.getElem?_eq_some_iff.mp hc).1, hc], hle⟩
  apart := h.apart

theorem abs_addRaw (h : WF s) (b : Bytes) : abs (Buffer.addRaw s b) = abs s := by
  refine Strings.ext ?_ ?_
  · funext i
    exact bytesOf_addRaw b _ (h.goodNodes i)
  · exact map_congr_left fun p hp => bytes_addRaw (h.good p (.inr hp)) b

theorem good_new (h : WF s) {off len : ℕ} (hle : off + len ≤ b.length) :
    (Buffer.addRaw s b).Good ⟨some s.raws.length, off, len⟩ where
  inside := ⟨_, b, rfl, by simp [Buffer.addRaw], hle⟩
  used i r hi hr := by
    obtain ⟨-, c, hc, -⟩ := h.buffer i r hi
    have hlt := (List.getElem?_eq_some_iff.mp hc).1
    have hlen : s.raws.length = r := Option.some.inj hr
    omega

theorem bytes_new (raws : Raws) (b : Bytes) (off len : ℕ) :
    Ptr.bytes (raws ++ [b]) ⟨some raws.length, off, len⟩ = (b.drop off).take len := by
  simp [Ptr.bytes, Ptr.data]

end addRaw

/-- `d` is written behind the `l` bytes of list `i`'s append buffer, `r`. -/
def fillBuffer (s : State n) (i : Fin n) (r l : ℕ) (d : Bytes) : State n :=
  { s.set i { s.lists i with appendBuffer := ⟨some r, 0, l + d.length⟩ } with
    raws := s.raws.modify r (patch · l d) }

section fillBuffer

variable {s : State n} {i : Fin n} {r l : ℕ} {b d : Bytes}

theorem lists_fillBuffer (j : Fin n) : (fillBuffer s i r l d).lists j =
    if j = i then { s.lists i with appendBuffer := ⟨some r, 0, l + d.length⟩ } else s.lists j :=
  update_apply s.lists i _ j

theorem nodes_fillBuffer (j : Fin n) : (fillBuffer s i r l d).nodes j = s.nodes j := by
  rw [nodes, lists_fillBuffer]
  by_cases h : j = i
  · rw [if_pos h, h, nodes]
  · rw [if_neg h, nodes]

theorem appendBuffer_fillBuffer (j : Fin n) : (fillBuffer s i r l d).appendBuffer j =
    if j = i then ⟨some r, 0, l + d.length⟩ else s.appendBuffer j := by
  rw [appendBuffer, lists_fillBuffer]
  by_cases h : j = i
  · rw [if_pos h, if_pos h]
  · rw [if_neg h, if_neg h, appendBuffer]

theorem getElem?_fillBuffer (hb : s.raws[r]? = some b) (k : ℕ) : (fillBuffer s i r l d).raws[k]? =
    if k = r then some (patch b l d) else s.raws[k]? := by
  rw [fillBuffer, getElem?_modify]
  by_cases hk : k = r
  · simp [hk, hb]
  · simp [hk, Ne.symm hk]

variable (hab : s.appendBuffer i = ⟨some r, 0, l⟩) (hb : s.raws[r]? = some b) (hle : l + d.length ≤ b.length)

include hab hb hle

variable {p : Ptr}

theorem good_fillBuffer (hp : s.Good p) : (fillBuffer s i r l d).Good p where
  inside := by
    obtain ⟨k, c, hk, hc, hkle⟩ := hp.inside
    by_cases hkr : k = r
    · have hcb : c = b := by
        rw [hkr, hb] at hc
        exact (Option.some.inj hc).symm
      refine ⟨k, patch b l d, hk, by rw [getElem?_fillBuffer hb, if_pos hkr], ?_⟩
      rwa [length_patch hle, ← hcb]
    · exact ⟨k, c, hk, by rw [getElem?_fillBuffer hb, if_neg hkr, hc], hkle⟩
  used j k hj hk := by
    rw [appendBuffer_fillBuffer] at hj ⊢
    by_cases h : j = i
    · rw [if_pos h] at hj ⊢
      have hused := hp.used i r (by rw [hab]) (hk.trans hj.symm)
      rw [hab] at hused
      exact hused.trans (Nat.le_add_right l _)
    · rw [if_neg h] at hj ⊢
      exact hp.used j k hj hk

theorem bytes_fillBuffer (hp : s.Good p) : p.bytes (fillBuffer s i r l d).raws = p.bytes s.raws := by
  obtain ⟨k, c, hk, hc, -⟩ := hp.inside
  by_cases hkr : k = r
  · -- the pointer ends before the bytes that are written
    have hused := hp.used i r (by rw [hab]) (by rw [hk, hkr])
    rw [hab] at hused
    have hb' : (fillBuffer s i r l d).raws[k]? = some (patch b l d) := by rw [getElem?_fillBuffer hb, if_pos hkr]
    rw [hkr] at hk hb'
    rw [Ptr.bytes, Ptr.bytes, data_eq hk hb', data_eq hk hb]
    exact slice_patch (by omega) hused
  · have hc' : (fillBuffer s i r l d).raws[k]? = some c := by rw [getElem?_fillBuffer hb, if_neg hkr, hc]
    rw [Ptr.bytes, Ptr.bytes, data_eq hk hc', data_eq hk hc]

theorem bytesOf_fillBuffer : ∀ xs : List Node, s.GoodNodes xs →
    bytesOf (fillBuffer s i r l d).raws xs = bytesOf s.raws xs
  | [], _ => rfl
  | x :: xs, h => by
    rw [bytesOf_cons, bytesOf_cons, bytes_fillBuffer hab hb hle (h x mem_cons_self),
      bytesOf_fillBuffer xs fun y hy => h y (mem_cons_of_mem x hy)]

theorem WF.fillBuffer (h : WF s) : WF (fillBuffer s i r l d) where
  small c hc := by
    obtain ⟨k, hk⟩ := mem_iff_getElem?.mp hc
    rw [getElem?_fillBuffer hb] at hk
    by_cases hkr : k = r
    · rw [if_pos hkr] at hk
      rw [← Option.some.inj hk, length_patch hle]
      exact h.small b (mem_of_getElem? hb)
    · rw [if_neg hkr] at hk
      exact h.small c (mem_of_getElem? hk)
  good p hp := by
    refine good_fillBuffer hab hb hle (h.good p ?_)
    rcases hp with ⟨j, x, hx, hxp⟩ | hp
    · exact .inl ⟨j, x, by rwa [nodes_fillBuffer] at hx, hxp⟩
    · exact .inr hp
  len j := by
    rw [nodes_fillBuffer, State.length, lists_fillBuffer, ← h.len j]
    by_cases hj : j = i
    · rw [if_pos hj, hj, State.length]
    · rw [if_neg hj, State.length]
  buffer j k hj := by
    rw [appendBuffer_fillBuffer] at hj ⊢
    by_cases h' : j = i
    · rw [if_pos h'] at hj ⊢
      refine ⟨rfl, patch b l d, ?_, by rwa [length_patch hle]⟩
      rw [getElem?_fillBuffer hb, if_pos (Option.some.inj hj).symm]
    · rw [if_neg h'] at hj ⊢
      obtain ⟨h0, c, hc, hcle⟩ := h.buffer j k hj
      have hkr : k ≠ r := by
        rintro rfl
        exact h' (h.apart j i k hj (by rw [hab]))
      exact ⟨h0, c, by rw [getElem?_fillBuffer hb, if_neg hkr, hc], hcle⟩
  apart j k q hj hk := by
    have hraw : ∀ j', ((Buffer.fillBuffer s i r l d).appendBuffer j').raw = (s.appendBuffer j').raw := by
      intro j'
      rw [appendBuffer_fillBuffer]
      by_cases h' : j' = i
      · rw [if_pos h', h', hab]
      · rw [if_neg h']
    rw [hraw] at hj hk
    exact h.apart j k q hj hk

theorem abs_fillBuffer (h : WF s) : abs (Buffer.fillBuffer s i r l d) = abs s := by
  refine Strings.ext ?_ ?_
  · funext j
    simp only [abs, content_eq, nodes_fillBuffer]
    exact bytesOf_fillBuffer hab hb hle _ (h.goodNodes j)
  · exact map_congr_left fun p hp => bytes_fillBuffer hab hb hle (h.good p (.inr hp))

theorem good_filled (h : WF s) : (Buffer.fillBuffer s i r l d).Good ⟨some r, 0, l + d.length⟩ where
  inside := ⟨r, patch b l d, rfl, by rw [getElem?_fillBuffer hb, if_pos rfl], by
    rw [length_patch hle]
    exact (zero_add _).trans_le hle⟩
  used j k hj hk := by
    rw [appendBuffer_fillBuffer] at hj ⊢
    by_cases h' : j = i
    · rw [if_pos h']
      exact le_of_eq (zero_add _)
    · rw [if_neg h'] at hj
      exact absurd (h.apart j i k hj (by rw [hab]; exact hk)) h'

omit hab in
theorem bytes_filled : ((Ptr.bytes (Buffer.fillBuffer s i r l d).raws ⟨some r, 0, l + d.length⟩).drop l).take
    d.length = d := by
  have hb' : (Buffer.fillBuffer s i r l d).raws[r]? = some (patch b l d) := by rw [getElem?_fillBuffer hb, if_pos rfl]
  rw [Ptr.bytes, data_eq rfl hb', drop_zero, drop_take, drop_patch (by omega)]
  simp

end fillBuffer

end Buffer
end Ceph
