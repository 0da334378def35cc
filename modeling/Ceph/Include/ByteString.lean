/-
# A bufferlist is a byte string

`spec` says what the operations do to byte strings and which arguments they are
made for: two-list operations take two lists, offsets and lengths stay inside,
and no list reaches 2^32 bytes. In a well-formed pool every operation that `spec`
allows returns, and does to the contents what `spec` says.
-/
import Ceph.Include.Pool
import Ceph.Lib.Run

namespace Ceph
namespace Buffer

open List Option Function
open Wire (Bytes)
open State

variable {n : ℕ}

/-- What an operation does to byte strings, and what it returns. -/
def spec (m : Machine) (a : Strings n) : Op n → Option (Strings n × Bytes)
  | .create data => if data.length < 2 ^ 32 then some ({ a with held := a.held ++ [data] }, []) else none
  | .sub h o l => a.held[h]?.bind fun b =>
    if o + l ≤ b.length then some ({ a with held := a.held ++ [(b.drop o).take l] }, []) else none
  | .append i data =>
    if data.length + m.pageSize ≤ 2 ^ 32 then (a.setSmall i (a.lists i ++ data)).map (·, []) else none
  | .appendPtr i h => a.held[h]?.bind fun b => (a.setSmall i (a.lists i ++ b)).map (·, [])
  | .appendRange i h off len => a.held[h]?.bind fun b =>
    if off + len ≤ b.length then (a.setSmall i (a.lists i ++ (b.drop off).take len)).map (·, []) else none
  | .appendList i j => if i ≠ j then (a.setSmall i (a.lists i ++ a.lists j)).map (·, []) else none
  | .appendZero i len => (a.setSmall i (a.lists i ++ List.replicate len 0)).map (·, [])
  | .clear i => some (a.set i [], [])
  | .claim i j => if i ≠ j then some ((a.set i (a.lists j)).set j [], []) else none
  | .claimAppend i j =>
    if i ≠ j then (a.setSmall i (a.lists i ++ a.lists j)).map fun b => (b.set j [], []) else none
  | .swap i j => some ((a.set i (a.lists j)).set j (a.lists i), [])
  | .assign i j => some (a.set i (a.lists j), [])
  | .substrOf i j off len =>
    if i ≠ j ∧ off + len ≤ (a.lists j).length then some (a.set i (((a.lists j).drop off).take len), []) else none
  | .splice i off len claimBy =>
    if off + len ≤ (a.lists i).length ∧ 0 < len then
      let a' := a.set i ((a.lists i).take off ++ (a.lists i).drop (off + len))
      match claimBy with
      | none => some (a', [])
      | some j =>
        if i ≠ j then (a'.setSmall j (a.lists j ++ ((a.lists i).drop off).take len)).map (·, []) else none
    else none
  | .rebuild _ => some (a, [])
  | .cStr i => some (a, a.lists i)
  | .getByte i k => (a.lists i)[k]?.map fun b => (a, [b])

/-! ### Appending -/

section append

variable {s : State n} {i : Fin n}

variable {len : ℕ}

theorem WF.appendPtrs (h : WF s) {ps : List Ptr} (hp : ∀ p ∈ ps, s.Good p)
    (hlen : u32 len = u32 (ps.map (·.len)).sum) :
    WF (appendPtrs s i ps len) ∧ abs (appendPtrs s i ps len) =
      (abs s).set i (s.content i ++ ps.flatMap (·.bytes s.raws)) := by
  have hform : Buffer.appendPtrs s i ps len = Buffer.withNodes s i (s.nodes i ++ mkNodes s.next ps)
    (u32 ((s.lists i).len + len)) (s.next + ps.length) := rfl
  rw [hform]
  constructor
  · refine h.withNodes ((h.goodNodes i).append (goodNodes_mkNodes hp)) ?_
    have hl : (s.lists i).len = u32 (total (s.nodes i)) := h.len i
    rw [hl, u32_add_u32, total_append, total_mkNodes]
    simp only [u32] at hlen ⊢
    omega
  · rw [abs_withNodes, bytesOf_append, bytesOf_mkNodes, content_eq]

variable {off : ℕ} {p : Ptr}

theorem appendRange_spec (h : WF s) (hp : s.Good p) (hle : off + len ≤ p.len) :
    ∃ ys, appendRange s i p off len = some (withNodes s i ys (u32 ((s.lists i).len + len)) (s.next + 1)) ∧
      s.GoodNodes ys ∧ bytesOf s.raws ys = s.content i ++ ((p.bytes s.raws).drop off).take len ∧
      total ys = total (s.nodes i) + len := by
  obtain ⟨ys, hys, hgood, hbytes, htotal⟩ := pushRange_spec h (h.goodNodes i) hp hle s.next
  refine ⟨ys, ?_, hgood, hbytes, htotal⟩
  rw [appendRange, hys]
  rfl

/-- What `append(ptr, off, len)` does to a pool. -/
theorem WF.appendRange (h : WF s) (hp : s.Good p) (hle : off + len ≤ p.len) :
    ∃ t, appendRange s i p off len = some t ∧ WF t ∧
      abs t = (abs s).set i (s.content i ++ ((p.bytes s.raws).drop off).take len) := by
  obtain ⟨ys, hys, hgood, hbytes, htotal⟩ := appendRange_spec (i := i) h hp hle
  refine ⟨_, hys, h.withNodes hgood ?_, by rw [abs_withNodes, hbytes]⟩
  have hl : (s.lists i).len = u32 (total (s.nodes i)) := h.len i
  rw [hl, u32_add_u32, htotal]

/-- What is left unused of list `i`'s append buffer. -/
def gap (s : State n) (i : Fin n) : ℕ := (s.appendBuffer i).unusedTailLength s.raws

theorem gap_eq (h : WF s) {r : ℕ} {b : Bytes} (hr : (s.appendBuffer i).raw = some r) (hb : s.raws[r]? = some b) :
    gap s i = b.length - (s.appendBuffer i).len := by
  obtain ⟨h0, c, hc, hle⟩ := h.buffer i r hr
  have hcb : c = b := some.inj (hc.symm.trans hb)
  have hlt := h.small b (mem_of_getElem? hb)
  subst hcb
  have hstop : (s.appendBuffer i).stop = (s.appendBuffer i).len := by
    rw [Ptr.stop, h0, zero_add, u32_eq (by omega)]
  rw [gap, Ptr.unusedTailLength, if_pos (by rw [hr]; rfl), data_eq hr hb, hstop, usub_eq hle hlt]

theorem fillGap_zero (hgap : gap s i = 0) (data : Bytes) : fillGap s i data = some (s, data) := by
  have hz : (s.lists i).appendBuffer.unusedTailLength s.raws = 0 := hgap
  simp only [fillGap]
  rw [if_pos hz]

/-- The bytes that fit go to the append buffer, and from there to the list. -/
theorem fillGap_eq {r l : ℕ} {d data : Bytes} (hab : s.appendBuffer i = ⟨some r, 0, l⟩) (hgap : gap s i ≠ 0)
    (hd : d = data.take (gap s i)) (hlt : l + d.length < 2 ^ 32) :
    fillGap s i data = (appendRange (fillBuffer s i r l d) i ⟨some r, 0, l + d.length⟩ l d.length).map fun t =>
      (t, data.drop (gap s i)) := by
  have hnz : ¬ Ptr.unusedTailLength s.raws (s.appendBuffer i) = 0 := hgap
  have hdlen : d.length = min (gap s i) data.length := by rw [hd, length_take]
  have hmin : min (Ptr.unusedTailLength s.raws (s.appendBuffer i)) data.length = d.length := hdlen.symm
  have htake : data.take d.length = d := by
    rw [hdlen, hd, take_eq_take_iff]
    omega
  have hdrop : data.drop d.length = data.drop (gap s i) := by
    rw [hdlen]
    rcases le_total (gap s i) data.length with hc | hc
    · rw [min_eq_left hc]
    · rw [min_eq_right hc, drop_length, drop_eq_nil_of_le hc]
  have hu : u32 (l + d.length) = l + d.length := u32_eq hlt
  have hstop : Ptr.stop ⟨some r, 0, l⟩ = l := by
    show u32 (0 + l) = l
    rw [zero_add, u32_eq (by omega)]
  have hstop' : Ptr.stop ⟨some r, 0, l + d.length⟩ = l + d.length := by
    show u32 (0 + (l + d.length)) = l + d.length
    rw [zero_add, hu]
  have husub : usub (l + d.length) d.length = l := by
    rw [usub_eq (Nat.le_add_left _ _) hlt]
    omega
  simp only [fillGap]
  rw [show (s.lists i).appendBuffer = s.appendBuffer i from rfl, if_neg hnz, hmin, hab]
  simp only [bind_some, hu, hstop, hstop', husub, htake, hdrop]
  rfl

/-- Where there is room, and the bytes `d` that will fill it. -/
theorem gap_cases (h : WF s) (hgap : gap s i ≠ 0) (data : Bytes) :
    ∃ r l b d, s.appendBuffer i = ⟨some r, 0, l⟩ ∧ s.raws[r]? = some b ∧ d = data.take (gap s i) ∧
      l + d.length ≤ b.length ∧ l + d.length < 2 ^ 32 := by
  cases hr : (s.appendBuffer i).raw with
  | none => exact absurd (by simp [gap, Ptr.unusedTailLength, hr]) hgap
  | some r =>
    obtain ⟨h0, b, hb, hle⟩ := h.buffer i r hr
    have hgapeq := gap_eq h hr hb
    have hlt := h.small b (mem_of_getElem? hb)
    have hfit : (s.appendBuffer i).len + (data.take (gap s i)).length ≤ b.length := by
      rw [length_take]
      omega
    refine ⟨r, (s.appendBuffer i).len, b, _, ?_, hb, rfl, hfit, by omega⟩
    rw [← hr, ← h0]

theorem fillGap_spec (h : WF s) (data : Bytes) :
    ∃ t, fillGap s i data = some (t, data.drop (gap s i)) ∧ WF t ∧
      abs t = (abs s).set i (s.content i ++ data.take (gap s i)) := by
  by_cases hgap : gap s i = 0
  · refine ⟨s, by rw [fillGap_zero hgap, hgap, drop_zero], h, Strings.ext ?_ rfl⟩
    rw [hgap, take_zero, append_nil]
    exact (update_eq_self i (abs s).lists).symm
  · obtain ⟨r, l, b, d, hab, hb, hd, hfit, hlt⟩ := gap_cases h hgap data
    have hs' := h.fillBuffer hab hb hfit
    obtain ⟨t, ht, hwf, habs⟩ := hs'.appendRange (i := i) (good_filled hab hb hfit h) (le_refl (l + d.length))
    refine ⟨t, by rw [fillGap_eq hab hgap hd hlt, ht]; rfl, hwf, ?_⟩
    have hc : (fillBuffer s i r l d).content i = s.content i :=
      congrFun (congrArg Strings.lists (abs_fillBuffer hab hb hfit h)) i
    rw [habs, bytes_filled hb hfit, abs_fillBuffer hab hb hfit h, hc, ← hd]

/-! A new append buffer -/

theorem length_create (m : Machine) (raws : Raws) (len : ℕ) : (m.create raws len).length = len := by
  simp [Machine.create]

section newAppendBuffer

variable (m : Machine) (len : ℕ)

theorem nodes_newAppendBuffer (j : Fin n) : (newAppendBuffer m s i len).nodes j = s.nodes j := by
  simp only [State.nodes, newAppendBuffer, State.set, update_apply]
  by_cases h : j = i
  · rw [if_pos h, h]
  · rw [if_neg h]

theorem appendBuffer_newAppendBuffer (j : Fin n) : (newAppendBuffer m s i len).appendBuffer j =
    if j = i then ⟨some s.raws.length, 0, 0⟩ else s.appendBuffer j := by
  simp only [State.appendBuffer, newAppendBuffer, State.set, update_apply]
  by_cases h : j = i
  · rw [if_pos h, if_pos h]
  · rw [if_neg h, if_neg h]

theorem good_newAppendBuffer {p : Ptr} (hp : s.Good p) : (newAppendBuffer m s i len).Good p where
  inside := (hp.addRaw _).inside
  used j r hj hr := by
    rw [appendBuffer_newAppendBuffer] at hj ⊢
    by_cases h : j = i
    · -- nobody points into the new buffer
      rw [if_pos h] at hj
      obtain ⟨k, b, hk, hb, -⟩ := hp.inside
      have hlt := (List.getElem?_eq_some_iff.mp hb).1
      have h1 : r = s.raws.length := (some.inj hj).symm
      have h2 : k = r := some.inj (hk.symm.trans hr)
      omega
    · rw [if_neg h] at hj ⊢
      exact hp.used j r hj hr

theorem WF.newAppendBuffer (h : WF s) : WF (newAppendBuffer m s i len) where
  small := (h.addRaw (by rw [length_create]; exact Nat.mod_lt _ (by decide))).small
  good p hp := by
    refine good_newAppendBuffer m len (h.good p ?_)
    rcases hp with ⟨j, x, hx, hxp⟩ | hp
    · exact .inl ⟨j, x, by rwa [nodes_newAppendBuffer] at hx, hxp⟩
    · exact .inr hp
  len j := by
    rw [nodes_newAppendBuffer, ← h.len j]
    simp only [State.length, Buffer.newAppendBuffer, State.set, update_apply]
    by_cases hj : j = i
    · rw [if_pos hj, hj]
    · rw [if_neg hj]
  buffer j r hj := by
    rw [appendBuffer_newAppendBuffer] at hj ⊢
    by_cases h' : j = i
    · rw [if_pos h'] at hj ⊢
      refine ⟨rfl, m.create s.raws (u32 (m.pageSize * ((len - 1) / m.pageSize + 1))), ?_, Nat.zero_le _⟩
      rw [← some.inj hj]
      exact getElem?_concat_length
    · rw [if_neg h'] at hj ⊢
      obtain ⟨h0, c, hc, hle⟩ := h.buffer j r hj
      refine ⟨h0, c, ?_, hle⟩
      rw [← hc]
      exact getElem?_append_left (List.getElem?_eq_some_iff.mp hc).1
  apart j k r hj hk := by
    have hold : ∀ j', j' ≠ i → (s.appendBuffer j').raw = some r → r ≠ s.raws.length := by
      intro j' _ hj' heq
      obtain ⟨-, c, hc, -⟩ := h.buffer j' r hj'
      have hlt := (List.getElem?_eq_some_iff.mp hc).1
      omega
    rw [appendBuffer_newAppendBuffer] at hj hk
    by_cases h1 : j = i <;> by_cases h2 : k = i
    · rw [h1, h2]
    · rw [if_pos h1] at hj
      rw [if_neg h2] at hk
      exact absurd (some.inj hj).symm (hold k h2 hk)
    · rw [if_neg h1] at hj
      rw [if_pos h2] at hk
      exact absurd (some.inj hk).symm (hold j h1 hj)
    · rw [if_neg h1] at hj
      rw [if_neg h2] at hk
      exact h.apart j k r hj hk

theorem abs_newAppendBuffer (h : WF s) : abs (Buffer.newAppendBuffer m s i len) = abs s := by
  refine Strings.ext ?_ ?_
  · funext j
    simp only [abs, content_eq, nodes_newAppendBuffer]
    exact bytesOf_addRaw _ _ (h.goodNodes j)
  · exact map_congr_left fun p hp => bytes_addRaw (h.good p (.inr hp)) _

theorem gap_newAppendBuffer (h : WF s) (hlen : 0 < len) (hle : len + m.pageSize ≤ 2 ^ 32) :
    len ≤ gap (Buffer.newAppendBuffer m s i len) i := by
  have hwf := h.newAppendBuffer m len (i := i)
  have hab := appendBuffer_newAppendBuffer (s := s) (i := i) m len i
  rw [if_pos rfl] at hab
  obtain ⟨-, b, hb, -⟩ := hwf.buffer i s.raws.length (by rw [hab])
  have hb' : b = m.create s.raws (u32 (m.pageSize * ((len - 1) / m.pageSize + 1))) := by
    refine some.inj (hb.symm.trans ?_)
    exact getElem?_concat_length
  rw [gap_eq hwf (by rw [hab]) hb, hab, hb', length_create]
  have hdiv := Nat.div_add_mod (len - 1) m.pageSize
  have hmod := Nat.mod_lt (len - 1) m.pageSize_pos
  have hmul : m.pageSize * ((len - 1) / m.pageSize + 1) = m.pageSize * ((len - 1) / m.pageSize) + m.pageSize :=
    Nat.mul_succ _ _
  rw [hmul, u32_eq (by omega)]
  show len ≤ _ - 0
  omega

end newAppendBuffer

/-- `append(data, len)` of fewer bytes than the last page below 2^32 begins with. -/
theorem append_spec (h : WF s) (m : Machine) {data : Bytes} (hlen : data.length + m.pageSize ≤ 2 ^ 32) :
    ∃ t, append m s i data = some t ∧ WF t ∧ abs t = (abs s).set i (s.content i ++ data) := by
  have hset : ∀ (a : Strings n) (b c : Bytes), (a.set i b).set i c = a.set i c := by
    intro a b c
    simp only [Strings.set, update_idem]
  by_cases hd : data = []
  · refine ⟨s, by rw [append, appendLoop, if_pos hd], h, Strings.ext ?_ rfl⟩
    rw [hd, append_nil]
    exact (update_eq_self i (abs s).lists).symm
  · obtain ⟨t, ht, hwf, habs⟩ := fillGap_spec (i := i) h data
    have hct : t.content i = s.content i ++ data.take (gap s i) := by
      have := congrFun (congrArg Strings.lists habs) i
      simpa only [abs, Strings.set, update_self] using this
    by_cases hd1 : data.drop (gap s i) = []
    · refine ⟨t, by rw [append, appendLoop, if_neg hd, ht, bind_some, if_pos hd1], hwf, ?_⟩
      rw [habs, take_of_length_le (drop_eq_nil_iff.mp hd1)]
    · -- the second round
      obtain ⟨rest, hrest⟩ : ∃ rest, rest = data.drop (gap s i) := ⟨_, rfl⟩
      rw [← hrest] at hd1 ht
      have hrlen : rest.length + m.pageSize ≤ 2 ^ 32 := by
        rw [hrest, length_drop]
        omega
      have hwf2 := hwf.newAppendBuffer (i := i) m rest.length
      obtain ⟨u, hu, hwfu, habsu⟩ := fillGap_spec (i := i) hwf2 rest
      have hgap := gap_newAppendBuffer (i := i) m rest.length hwf (length_pos_iff.mpr hd1) hrlen
      rw [drop_eq_nil_of_le hgap] at hu
      rw [take_of_length_le hgap] at habsu
      have hcu : (Buffer.newAppendBuffer m t i rest.length).content i = t.content i :=
        congrFun (congrArg Strings.lists (abs_newAppendBuffer m _ hwf)) i
      refine ⟨u, ?_, hwfu, ?_⟩
      · rw [append, appendLoop, if_neg hd, ht, bind_some, if_neg hd1, appendLoop, if_neg hd1, hu,
          bind_some, if_pos rfl]
      · rw [habsu, abs_newAppendBuffer m _ hwf, habs, hset, hcu, hct, hrest, append_assoc, take_append_drop]

theorem appendZero_spec (h : WF s) (hlen : len < 2 ^ 32) :
    WF (appendZero s i len) ∧ abs (appendZero s i len) = (abs s).set i (s.content i ++ replicate len 0) := by
  have hb : (replicate len (0 : UInt8)).length < 2 ^ 32 := by rwa [length_replicate]
  have hp : (addRaw s (replicate len 0)).Good ⟨some s.raws.length, 0, len⟩ :=
    good_new h (by rw [length_replicate, zero_add])
  have hps : ∀ p ∈ [(⟨some s.raws.length, 0, len⟩ : Ptr)], (addRaw s (replicate len 0)).Good p := by
    intro p hm
    rwa [mem_singleton.mp hm]
  have hsum : u32 len = u32 ([(⟨some s.raws.length, 0, len⟩ : Ptr)].map (·.len)).sum := by simp
  obtain ⟨hwf, habs⟩ := (h.addRaw hb).appendPtrs (i := i) hps hsum
  refine ⟨hwf, ?_⟩
  have hc : (addRaw s (replicate len 0)).content i = s.content i :=
    congrFun (congrArg Strings.lists (abs_addRaw h _)) i
  have hbytes : Ptr.bytes (addRaw s (replicate len 0)).raws ⟨some s.raws.length, 0, len⟩ = replicate len 0 := by
    rw [addRaw, bytes_new, drop_zero, take_of_length_le (by rw [length_replicate])]
  have hform : appendZero s i len = Buffer.appendPtrs (addRaw s (replicate len 0)) i
    [⟨some s.raws.length, 0, len⟩] len := rfl
  rw [hform, habs, abs_addRaw h, hc]
  simp only [flatMap_cons, flatMap_nil, append_nil, hbytes]

end append

/-! ### Moving -/

section move

variable {s : State n} {i j : Fin n}

theorem abs_set_self (a : Strings n) (i : Fin n) : a.set i (a.lists i) = a :=
  Strings.ext (update_eq_self i a.lists) rfl

theorem clear_spec (h : WF s) (i : Fin n) : WF (clear s i) ∧ abs (clear s i) = (abs s).set i [] := by
  have hform : clear s i = withNodes s i [] 0 s.next := rfl
  exact ⟨h.withNodes (nofun) rfl, abs_withNodes⟩

theorem appendList_spec (h : WF s) (hij : i ≠ j) :
    ∃ t, appendList s i j = some t ∧ WF t ∧ abs t = (abs s).set i (s.content i ++ s.content j) := by
  have hp : ∀ p ∈ (s.nodes j).map (·.ptr), s.Good p := by
    intro p hp
    obtain ⟨x, hx, rfl⟩ := mem_map.mp hp
    exact h.goodNodes j x hx
  have hlen : u32 (s.lists j).len = u32 (((s.nodes j).map (·.ptr)).map (·.len)).sum := by
    have hl : (s.lists j).len = u32 (total (s.nodes j)) := h.len j
    rw [hl, List.map_map, total, u32, u32, Nat.mod_mod]
    rfl
  obtain ⟨hwf, habs⟩ := h.appendPtrs (i := i) hp hlen
  refine ⟨_, by rw [appendList, if_neg fun hc => hij hc.1], hwf, ?_⟩
  rw [habs, flatMap_map]
  rfl

theorem claimAppend_spec (h : WF s) (hij : i ≠ j) : ∃ t, claimAppend s i j = some t ∧ WF t ∧
      abs t = ((abs s).set i (s.content i ++ s.content j)).set j [] := by
  have hwf1 : WF (withNodes s i (s.nodes i ++ s.nodes j) (u32 ((s.lists i).len + (s.lists j).len)) s.next) := by
    refine h.withNodes ((h.goodNodes i).append (h.goodNodes j)) ?_
    have hi : (s.lists i).len = u32 (total (s.nodes i)) := h.len i
    have hj : (s.lists j).len = u32 (total (s.nodes j)) := h.len j
    rw [hi, hj, total_append]
    exact (Nat.add_mod _ _ _).symm
  obtain ⟨hwf, habs⟩ := clear_spec hwf1 j
  refine ⟨_, ?_, hwf, ?_⟩
  · rw [claimAppend, if_neg hij, clear, lists_withNodes, if_neg (Ne.symm hij)]
    rfl
  · rw [habs, abs_withNodes, bytesOf_append]
    rfl

theorem claim_spec (h : WF s) (hij : i ≠ j) :
    ∃ t, claim s i j = some t ∧ WF t ∧ abs t = ((abs s).set i (s.content j)).set j [] := by
  obtain ⟨hwf, habs⟩ := clear_spec h i
  obtain ⟨t, ht, hwft, habst⟩ := claimAppend_spec hwf hij
  have hc : ∀ k, (clear s i).content k = if k = i then [] else s.content k := by
    intro k
    have hk := congrFun (congrArg Strings.lists habs) k
    simpa only [abs, Strings.set, update_apply] using hk
  refine ⟨t, ht, hwft, ?_⟩
  rw [habst, habs, hc i, hc j, if_pos rfl, if_neg (Ne.symm hij), nil_append]
  simp only [Strings.set, update_idem]

theorem assign_of_ne (hij : i ≠ j) : assign s i j = withNodes s i (mkNodes s.next ((s.nodes j).map (·.ptr)))
    (s.lists j).len (s.next + (s.nodes j).length) := by
  rw [assign, if_neg hij]
  rfl

theorem assign_spec (h : WF s) (i j : Fin n) :
    WF (assign s i j) ∧ abs (assign s i j) = (abs s).set i (s.content j) := by
  by_cases hij : i = j
  · rw [assign, if_pos hij, hij]
    exact ⟨h, (abs_set_self (abs s) j).symm⟩
  · have hp : ∀ p ∈ (s.nodes j).map (·.ptr), s.Good p := by
      intro p hp
      obtain ⟨x, hx, rfl⟩ := mem_map.mp hp
      exact h.goodNodes j x hx
    rw [assign_of_ne hij]
    constructor
    · refine h.withNodes (goodNodes_mkNodes hp) ?_
      rw [total_mkNodes, List.map_map]
      exact h.len j
    · rw [abs_withNodes, bytesOf_mkNodes, flatMap_map]
      rfl

/-- List `k` after a swap is the other one of the two, but for its position. -/
theorem lists_swap (s : State n) (i j k : Fin n) : (swap s i j).lists k =
    { s.lists (Equiv.swap i j k) with lastP := (s.lists k).lastP } := by
  simp only [swap, State.set, update_apply, Equiv.swap_apply_def]
  by_cases hj : k = j
  · by_cases hi : k = i
    · subst hj hi
      simp
    · subst hj
      simp [hi]
  · by_cases hi : k = i
    · subst hi
      simp [hj]
    · simp [hi, hj]

theorem swap_spec (h : WF s) (i j : Fin n) :
    WF (swap s i j) ∧ abs (swap s i j) = ((abs s).set i (s.content j)).set j (s.content i) := by
  have hnodes : ∀ k, (swap s i j).nodes k = s.nodes (Equiv.swap i j k) := by
    intro k
    rw [State.nodes, lists_swap, State.nodes]
  have hab : ∀ k, (swap s i j).appendBuffer k = s.appendBuffer (Equiv.swap i j k) := by
    intro k
    rw [State.appendBuffer, lists_swap, State.appendBuffer]
  have hgood : ∀ p, s.Good p → (swap s i j).Good p := by
    intro p hp
    refine ⟨hp.inside, fun k r hk => ?_⟩
    rw [hab] at hk ⊢
    exact hp.used _ r hk
  refine ⟨⟨h.small, ?_, ?_, ?_, ?_⟩, Strings.ext ?_ rfl⟩
  · rintro p (⟨k, x, hx, rfl⟩ | hp)
    · rw [hnodes] at hx
      exact hgood _ (h.goodNodes _ x hx)
    · exact hgood p (h.good p (.inr hp))
  · intro k
    rw [hnodes, State.length, lists_swap]
    exact h.len _
  · intro k r hk
    rw [hab] at hk ⊢
    exact h.buffer _ r hk
  · intro k l r hk hl
    rw [hab] at hk hl
    exact (Equiv.swap i j).injective (h.apart _ _ r hk hl)
  · funext k
    simp only [abs, Strings.set, update_apply, content_eq, hnodes, Equiv.swap_apply_def]
    by_cases hj : k = j
    · by_cases hi : k = i
      · subst hj hi
        simp [swap, State.set]
      · subst hj
        simp [swap, State.set, hi]
    · by_cases hi : k = i
      · subst hi
        simp [swap, State.set, hj]
      · simp [swap, State.set, hi, hj]

end move

/-! ### Rebuilding and reading -/

section read

variable {s : State n} {i : Fin n}

/-- `rebuild` copies the segments one behind the other. -/
theorem rebuildLoop_spec (h : WF s) {T : ℕ} (hT : T < 2 ^ 32) : ∀ (xs : List Node) (pos : ℕ) (nb : Bytes),
    s.GoodNodes xs → nb.length = T → pos + total xs = T →
    rebuildLoop s.raws T xs pos nb = some (nb.take pos ++ bytesOf s.raws xs)
  | [], pos, nb, _, hnb, hpos => by
    have hle : nb.length ≤ pos := by
      rw [total_nil] at hpos
      omega
    rw [rebuildLoop, bytesOf_nil, append_nil, take_of_length_le hle]
  | x :: xs, pos, nb, hx, hnb, hpos => by
    have hgood := hx x mem_cons_self
    have hlen := hgood.length_bytes
    rw [total_cons] at hpos
    have hu : u32 (pos + x.ptr.len) = pos + x.ptr.len := u32_eq (by omega)
    have hfit : pos + (x.ptr.bytes s.raws).length ≤ nb.length := by omega
    have hrec := rebuildLoop_spec h hT xs (pos + x.ptr.len) (patch nb pos (x.ptr.bytes s.raws))
      (fun y hy => hx y (mem_cons_of_mem x hy)) (by rw [length_patch hfit, hnb]) (by omega)
    have htake : (patch nb pos (x.ptr.bytes s.raws)).take (pos + x.ptr.len) = nb.take pos ++ x.ptr.bytes s.raws := by
      have hpos' : (nb.take pos).length = pos := by
        rw [length_take]
        omega
      rw [patch, ← hlen, take_left' (by rw [length_append, hpos'])]
    rw [rebuildLoop, hu, if_pos ⟨hgood.isSome, by omega, by omega⟩, hrec, htake, bytesOf_cons, append_assoc]

theorem rebuild_spec (h : WF s) (hs : (abs s).Small) (m : Machine) :
    ∃ t, rebuild m s i = some t ∧ WF t ∧ abs t = abs s ∧
      t.nodes i = [⟨s.next, ⟨some s.raws.length, 0, s.length i⟩⟩] := by
  have hlt : total (s.nodes i) < 2 ^ 32 := by
    rw [← h.length_content i]
    exact hs i
  have hlen : (s.lists i).len = total (s.nodes i) := (h.len i).trans (u32_eq hlt)
  have hloop := rebuildLoop_spec h hlt (s.nodes i) 0 (m.create s.raws (total (s.nodes i))) (h.goodNodes i)
    (length_create _ _ _) (zero_add _)
  have hclen : (s.content i).length = total (s.nodes i) := h.length_content i
  have hgood : (addRaw s (s.content i)).Good ⟨some s.raws.length, 0, total (s.nodes i)⟩ :=
    good_new h (by rw [hclen, zero_add])
  have hwf : WF (withNodes (addRaw s (s.content i)) i [⟨s.next, ⟨some s.raws.length, 0, total (s.nodes i)⟩⟩]
      (total (s.nodes i)) (s.next + 1)) := by
    refine (h.addRaw (hs i)).withNodes (State.GoodNodes.cons hgood nofun) ?_
    simp only [total_cons, total_nil, add_zero, u32_eq hlt]
  have hform : rebuild m s i = some (withNodes (addRaw s (s.content i)) i
      [⟨s.next, ⟨some s.raws.length, 0, total (s.nodes i)⟩⟩] (total (s.nodes i)) (s.next + 1)) := by
    simp only [rebuild, hlen]
    rw [show (s.lists i).nodes = s.nodes i from rfl, hloop]
    rfl
  refine ⟨_, hform, hwf, ?_, ?_⟩
  · rw [abs_withNodes, abs_addRaw h, bytesOf_cons, bytesOf_nil, append_nil, addRaw, bytes_new, drop_zero,
      take_of_length_le (le_of_eq hclen)]
    exact abs_set_self (abs s) i
  · rw [nodes_withNodes_self, State.length, hlen]

theorem cStr_spec (h : WF s) (hs : (abs s).Small) (m : Machine) :
    ∃ t p, cStr m s i = some (t, p) ∧ WF t ∧ abs t = abs s ∧ p.bytes t.raws = s.content i := by
  rcases hxs : s.nodes i with _ | ⟨x, _ | ⟨y, ys⟩⟩
  · refine ⟨s, Ptr.null, by simp only [cStr, hxs], h, rfl, ?_⟩
    rw [content_eq, hxs]
    rfl
  · have hx : s.Good x.ptr := h.goodNodes i x (by rw [hxs]; exact mem_cons_self)
    refine ⟨s, x.ptr, ?_, h, rfl, ?_⟩
    · simp only [cStr, hxs]
      rw [if_pos hx.isSome]
    · rw [content_eq, hxs, bytesOf_cons, bytesOf_nil, append_nil]
  · obtain ⟨t, ht, hwf, habs, hnodes⟩ := rebuild_spec (i := i) h hs m
    refine ⟨t, ⟨some s.raws.length, 0, s.length i⟩, ?_, hwf, habs, ?_⟩
    · simp only [cStr, hxs, ht, bind_some, hnodes, head?_cons, map_some]
    · have hc : t.content i = s.content i := congrFun (congrArg Strings.lists habs) i
      rw [← hc, content_eq, hnodes, bytesOf_cons, bytesOf_nil, append_nil]

theorem getByte_go (s : State n) : ∀ (xs : List Node) (k : ℕ), s.GoodNodes xs →
    getByte.go s xs k = (bytesOf s.raws xs)[k]?
  | [], k, _ => rfl
  | x :: xs, k, hx => by
    have hlen := (hx x mem_cons_self).length_bytes
    have hrec := getByte_go s xs (k - x.ptr.len) fun y hy => hx y (mem_cons_of_mem x hy)
    rw [getByte.go, bytesOf_cons]
    by_cases hle : x.ptr.len ≤ k
    · rw [if_pos hle, hrec, getElem?_append_right (by omega), hlen]
    · rw [if_neg hle, getElem?_append_left (by omega)]

theorem getByte_spec (h : WF s) (hs : (abs s).Small) {k : ℕ} (hk : k < (s.content i).length) :
    getByte s i k = (s.content i)[k]? := by
  rw [getByte, h.length_eq hs, if_pos hk, getByte_go s _ _ (h.goodNodes i), content_eq]

end read

/-! ### Cutting -/

/-- Where a walk stops. -/
structure Stop (xs : List Node) (off : ℕ) (pre rest : List Node) (r : ℕ) : Prop where
  split : xs = pre ++ rest
  off : total pre + r = off
  inside : r = 0 ∨ ∃ x ys, rest = x :: ys ∧ r < x.ptr.len

theorem skip_spec : ∀ (xs : List Node) (off : ℕ), off ≤ total xs →
    ∃ pre rest r, skip xs off = some (pre, rest, r) ∧ Stop xs off pre rest r
  | xs, 0, _ => ⟨[], xs, 0, by cases xs <;> rfl, rfl, rfl, .inl rfl⟩
  | [], off + 1, h => absurd h (Nat.not_succ_le_zero off)
  | x :: xs, off + 1, h => by
    rw [total_cons] at h
    by_cases hle : x.ptr.len ≤ off + 1
    · obtain ⟨pre, rest, r, hskip, hstop⟩ := skip_spec xs (off + 1 - x.ptr.len) (by omega)
      have hoff := hstop.off
      refine ⟨x :: pre, rest, r, ?_, by rw [hstop.split]; rfl, ?_, hstop.inside⟩
      · rw [skip, if_pos hle, hskip]
        rfl
      · rw [total_cons]
        omega
    · exact ⟨[], x :: xs, off + 1, by rw [skip, if_neg hle], rfl, zero_add _, .inr ⟨x, xs, rfl, by omega⟩⟩

/-- A part that reaches past `B`. -/
theorem slice_append {B R : Bytes} {off len : ℕ} (hoff : off ≤ B.length) (hlen : B.length - off ≤ len) :
    ((B ++ R).drop off).take len = B.drop off ++ R.take (len - (B.length - off)) := by
  rw [drop_append_of_le_length hoff, take_append, length_drop,
    take_of_length_le (by rw [length_drop]; exact hlen)]

/-- A part that ends inside `B`. -/
theorem slice_append_left {B R : Bytes} {off len : ℕ} (h : off + len ≤ B.length) :
    ((B ++ R).drop off).take len = (B.drop off).take len := by
  rw [drop_append_of_le_length (by omega), take_append_of_le_length (by rw [length_drop]; omega)]

section cut

variable {s : State n}

variable {off : ℕ} {xs : List Node}

theorem le_of_inside {x : Node}
    (h : off = 0 ∨ ∃ y ys, x :: xs = y :: ys ∧ off < y.ptr.len) : off ≤ x.ptr.len := by
  rcases h with rfl | ⟨y, ys, hy, hlt⟩
  · exact Nat.zero_le _
  · cases hy
    exact hlt.le

/-- The numbers of a round that goes past a segment of length `k`. -/
theorem past_segment {o k off len : ℕ} (hoff : off ≤ k) (hpart : ¬ off + (len + 1) < k) (_ : o + k < 2 ^ 32)
    (hlt : off + (len + 1) < 2 ^ 32) : off + (k - off) ≤ k ∧ usub k off = k - off ∧
      usub (len + 1) (k - off) = len + 1 - (k - off) :=
  ⟨by omega, usub_eq hoff (by omega), usub_eq (by omega) (by omega)⟩

theorem segment_at {pre rest : List Node} {x : Node} {i : Fin n} (h : s.nodes i = pre ++ x :: rest) :
    (s.nodes i)[pre.length]? = some x ∧ (s.nodes i).eraseIdx pre.length = pre ++ rest := by
  rw [h, getElem?_append_right le_rfl, eraseIdx_append_of_length_le le_rfl, Nat.sub_self]
  exact ⟨rfl, rfl⟩

theorem substrLoop_spec (h : WF s) : ∀ (xs : List Node) (off len : ℕ), s.GoodNodes xs →
    (off = 0 ∨ ∃ x ys, xs = x :: ys ∧ off < x.ptr.len) → off + len ≤ total xs → off + len < 2 ^ 32 →
    ∃ qs, substrLoop xs off len = some qs ∧ (∀ q ∈ qs, s.Good q) ∧
      qs.flatMap (·.bytes s.raws) = ((bytesOf s.raws xs).drop off).take len ∧ (qs.map (·.len)).sum = len
  | xs, off, 0, _, _, _, _ => ⟨[], by cases xs <;> rfl, nofun, by simp, rfl⟩
  | [], off, len + 1, _, _, hle, _ => by
    rw [total_nil] at hle
    omega
  | x :: xs, off, len + 1, hx, hin, hle, hlt => by
    have hgood := hx x mem_cons_self
    have hlen := hgood.length_bytes
    have hxlt := hgood.lt h
    have hoff := le_of_inside hin
    rw [total_cons] at hle
    rw [bytesOf_cons, substrLoop, u32_eq hlt]
    by_cases hpart : off + (len + 1) < x.ptr.len
    · have hfit : off + (len + 1) ≤ x.ptr.len := le_of_lt hpart
      refine ⟨[⟨x.ptr.raw, x.ptr.off + off, len + 1⟩], ?_, ?_, ?_, by simp⟩
      · rw [if_pos hpart, hgood.sub_eq h hfit]
        rfl
      · intro q hq
        rw [mem_singleton.mp hq]
        exact hgood.sub hfit
      · rw [flatMap_cons, flatMap_nil, append_nil, bytes_sub s.raws hfit,
          slice_append_left (by omega)]
    · obtain ⟨hfit, h1, h2⟩ := past_segment hoff hpart hxlt hlt
      obtain ⟨qs, hqs, hqgood, hqbytes, hqsum⟩ := substrLoop_spec h xs 0 (len + 1 - (x.ptr.len - off))
        (fun y hy => hx y (mem_cons_of_mem x hy)) (.inl rfl) (by omega) (by omega)
      refine ⟨⟨x.ptr.raw, x.ptr.off + off, x.ptr.len - off⟩ :: qs, ?_, ?_, ?_, ?_⟩
      · simp only [if_neg hpart, h1, h2, hgood.sub_eq h hfit, bind_some, hqs, map_some]
      · intro q hq
        rcases mem_cons.mp hq with rfl | hq
        · exact hgood.sub hfit
        · exact hqgood q hq
      · rw [slice_append (by omega) (by omega), flatMap_cons, hqbytes, bytes_sub s.raws hfit, hlen,
          drop_zero, take_of_length_le (by rw [length_drop]; omega)]
      · rw [map_cons, sum_cons, hqsum]
        show x.ptr.len - off + _ = _
        omega

variable {i : Fin n} {len : ℕ}

theorem substrOf_spec (h : WF s) (hs : (abs s).Small) {j : Fin n} (hij : i ≠ j)
    (hle : off + len ≤ (s.content j).length) :
    ∃ t, substrOf s i j off len = some t ∧ WF t ∧
      abs t = (abs s).set i (((s.content j).drop off).take len) := by
  have hlt : (s.content j).length < 2 ^ 32 := hs j
  obtain ⟨hwf, habs⟩ := clear_spec h i
  have hnodes : (clear s i).nodes j = s.nodes j := nodes_withNodes_of_ne (Ne.symm hij)
  have htotal := h.length_content j
  obtain ⟨pre, rest, r, hskip, hstop⟩ := skip_spec (s.nodes j) off (by omega)
  obtain ⟨hpre, hrest⟩ := hwf.split (hnodes.trans hstop.split)
  have hsum : total (s.nodes j) = total pre + total rest := by rw [hstop.split, total_append]
  have hoff := hstop.off
  obtain ⟨qs, hqs, hqgood, hqbytes, hqsum⟩ := substrLoop_spec hwf rest r len hrest hstop.inside (by omega) (by omega)
  obtain ⟨hwft, habst⟩ := hwf.appendPtrs (i := i) hqgood rfl
  refine ⟨_, ?_, hwft, ?_⟩
  · simp only [substrOf]
    rw [h.length_eq hs, u32_eq (by omega), if_pos hle, hnodes, hskip, bind_some, hqs, map_some]
  · have hci : (clear s i).content i = [] := by
      rw [content_eq, show (clear s i).nodes i = [] from nodes_withNodes_self]
      rfl
    have hcj : s.content j = bytesOf s.raws pre ++ bytesOf s.raws rest := by
      rw [content_eq, hstop.split, bytesOf_append]
    have hplen : (bytesOf s.raws pre).length = total pre := length_bytesOf (s := clear s i) pre hpre
    rw [habst, habs, hci, nil_append, hqbytes, hcj, ← hoff, ← hplen, drop_append]
    simp only [Strings.set, update_idem]
    rw [drop_eq_nil_of_le (Nat.le_add_right _ _), nil_append, Nat.add_sub_cancel_left]
    rfl

/-- What `claim_by` gets. -/
def Strings.give (a : Strings n) (claimBy : Option (Fin n)) (b : Bytes) : Strings n :=
  match claimBy with
  | none => a
  | some j => a.set j (a.lists j ++ b)

theorem give_nil (a : Strings n) (claimBy : Option (Fin n)) : a.give claimBy [] = a := by
  cases claimBy with
  | none => rfl
  | some j =>
    simp only [Strings.give, append_nil]
    exact abs_set_self a j

theorem give_append (a : Strings n) (claimBy : Option (Fin n)) (b c : Bytes) :
    (a.give claimBy b).give claimBy c = a.give claimBy (b ++ c) := by
  cases claimBy with
  | none => rfl
  | some j => simp only [Strings.give, Strings.set, update_self, update_idem, append_assoc]

variable {claimBy : Option (Fin n)}

theorem give_set (a : Strings n) (h : claimBy ≠ some i) (b c : Bytes) :
    (a.set i b).give claimBy c = (a.give claimBy c).set i b := by
  cases claimBy with
  | none => rfl
  | some j =>
    have hji : j ≠ i := fun he => h (congrArg some he)
    simp only [Strings.give, Strings.set, update_of_ne hji]
    rw [update_comm hji]

theorem claimPart_spec (h : WF s) (hi : claimBy ≠ some i) {p : Ptr}
    (hp : s.Good p) (hle : off + len ≤ p.len) :
    ∃ t, claimPart s claimBy p off len = some t ∧ WF t ∧ t.raws = s.raws ∧ t.lists i = s.lists i ∧
      abs t = (abs s).give claimBy (((p.bytes s.raws).drop off).take len) := by
  cases claimBy with
  | none => exact ⟨s, rfl, h, rfl, rfl, rfl⟩
  | some j =>
    have hij : i ≠ j := fun he => hi (congrArg some he.symm)
    obtain ⟨ys, hys, hgood, hbytes, htotal⟩ := appendRange_spec (i := j) h hp hle
    refine ⟨_, hys, h.withNodes hgood ?_, rfl, ?_, ?_⟩
    · have hl : (s.lists j).len = u32 (total (s.nodes j)) := h.len j
      rw [hl, u32_add_u32, htotal]
    · rw [lists_withNodes, if_neg hij]
    · rw [abs_withNodes, hbytes]
      rfl

/-- The nodes of list `i` change, and what goes is taken off `_len`. -/
theorem setNodes_spec (h : WF s) (gone : ℕ) (hx : s.GoodNodes xs)
    (htotal : total (s.nodes i) = total xs + gone) (hgone : gone < 2 ^ 32) :
    WF (setNodes s i xs gone) ∧ abs (setNodes s i xs gone) = (abs s).set i (bytesOf s.raws xs) := by
  have hform : setNodes s i xs gone = withNodes s i xs (usub (s.lists i).len gone) s.next := rfl
  refine ⟨h.withNodes hx ?_, abs_withNodes⟩
  have hl : (s.lists i).len = u32 (total (s.nodes i)) := h.len i
  rw [hl, usub_u32 (by omega) hgone, htotal, Nat.add_sub_cancel]

theorem goodNodes_congr {t : State n} (hraws : t.raws = s.raws)
    (hab : ∀ i, t.appendBuffer i = s.appendBuffer i) (h : s.GoodNodes xs) : t.GoodNodes xs := by
  intro x hx
  refine ⟨by rw [hraws]; exact (h x hx).inside, fun i r hi hr => ?_⟩
  rw [hab] at hi ⊢
  exact (h x hx).used i r hi hr

/-- The loop of `splice` from a segment `x` of which `off` bytes are kept already:
the next `len` bytes go. -/
theorem spliceLoop_spec (hi : claimBy ≠ some i) (pre : List Node) :
    ∀ (rest : List Node) (s : State n) (fuel off len : ℕ), WF s → s.nodes i = pre ++ rest →
    (off = 0 ∨ 0 < len ∧ ∃ x ys, rest = x :: ys ∧ off < x.ptr.len) → off + len ≤ total rest → off + len < 2 ^ 32 →
    rest.length ≤ fuel →
    ∃ t, spliceLoop claimBy i pre.length fuel s off len = some t ∧ WF t ∧
      abs t = ((abs s).set i (bytesOf s.raws pre ++ (bytesOf s.raws rest).drop (off + len))).give claimBy
        (((bytesOf s.raws rest).drop off).take len)
  | rest, s, fuel, off, 0, h, hnodes, hin, hle, hlt, hfuel => by
    have hoff : off = 0 := by
      rcases hin with hz | ⟨hz, -⟩
      · exact hz
      · exact absurd hz (lt_irrefl 0)
    refine ⟨s, by cases fuel <;> rfl, h, ?_⟩
    rw [hoff, take_zero, give_nil, drop_zero, ← bytesOf_append, ← hnodes, ← content_eq]
    exact (abs_set_self (abs s) i).symm
  | [], s, fuel, off, len + 1, h, hnodes, hin, hle, hlt, hfuel => by
    rw [total_nil] at hle
    omega
  | x :: rest, s, 0, off, len + 1, h, hnodes, hin, hle, hlt, hfuel => by
    rw [length_cons] at hfuel
    omega
  | x :: rest, s, fuel + 1, off, len + 1, h, hnodes, hin, hle, hlt, hfuel => by
    obtain ⟨hpre, hxs⟩ := h.split hnodes
    obtain ⟨hx, hrest⟩ : s.Good x.ptr ∧ s.GoodNodes rest := forall_mem_cons.mp hxs
    have hlen := hx.length_bytes
    have hxlt := hx.lt h
    have hoff := le_of_inside (hin.imp_right And.right)
    rw [total_cons] at hle
    rw [length_cons] at hfuel
    rw [spliceLoop, if_neg (Nat.succ_ne_zero len), (segment_at hnodes).1, bind_some, u32_eq hlt, bytesOf_cons]
    by_cases hpart : off + (len + 1) < x.ptr.len
    · -- the segment loses its first bytes
      obtain ⟨t, ht, hwf, hraws, hlist, habs⟩ := claimPart_spec h hi hx (le_of_lt hpart)
      have hab : ∀ k, t.appendBuffer k = s.appendBuffer k := by
        intro k
        cases claimBy with
        | none => rw [show t = s from (some.inj ht).symm]
        | some j =>
          obtain ⟨ys, hys, -⟩ := appendRange_spec (i := j) h hx (le_of_lt hpart)
          rw [show t = _ from (some.inj (hys.symm.trans ht)).symm, appendBuffer_withNodes]
      have hoffs : u32 (off + (len + 1) + x.ptr.off) = x.ptr.off + (off + (len + 1)) := by
        rw [u32_eq (by omega), add_comm]
      have hlens : usub x.ptr.len (len + 1 + off) = x.ptr.len - (off + (len + 1)) := by
        rw [usub_eq (by omega) (by omega), add_comm (len + 1)]
      have hfit : off + (len + 1) + (x.ptr.len - (off + (len + 1))) ≤ x.ptr.len := by omega
      have htnodes : t.nodes i = pre ++ x :: rest := by rw [State.nodes, hlist, ← hnodes, State.nodes]
      have hset : (t.nodes i).set pre.length
          ⟨x.id, ⟨x.ptr.raw, x.ptr.off + (off + (len + 1)), x.ptr.len - (off + (len + 1))⟩⟩ = pre ++
          ⟨x.id, ⟨x.ptr.raw, x.ptr.off + (off + (len + 1)), x.ptr.len - (off + (len + 1))⟩⟩ :: rest := by
        rw [htnodes, set_append_right _ _ (Nat.le_refl _), Nat.sub_self]
        rfl
      have hgood' : s.GoodNodes (pre ++
          ⟨x.id, ⟨x.ptr.raw, x.ptr.off + (off + (len + 1)), x.ptr.len - (off + (len + 1))⟩⟩ :: rest) :=
        hpre.append (hrest.cons (hx.sub hfit))
      obtain ⟨hwf', habs'⟩ := setNodes_spec (i := i) hwf (off + (len + 1)) (goodNodes_congr hraws hab hgood')
        (by
          rw [htnodes, total_append, total_append, total_cons, total_cons]
          show _ = total pre + (x.ptr.len - (off + (len + 1)) + total rest) + _
          omega) hlt
      refine ⟨_, ?_, hwf', ?_⟩
      · rw [if_pos hpart, ht, map_some, hoffs, hlens, hset]
      · rw [habs', habs, hraws, ← give_set _ hi, bytesOf_append, bytesOf_cons, bytes_sub s.raws hfit]
        rw [slice_append_left (by omega), drop_append_of_le_length (by omega),
          take_of_length_le (by rw [length_drop]; omega)]
    · -- the segment goes
      obtain ⟨hfit, h1, h2⟩ := past_segment hoff hpart hxlt hlt
      obtain ⟨t, ht, hwf, hraws, hlist, habs⟩ := claimPart_spec h hi hx hfit
      have htnodes : t.nodes i = pre ++ x :: rest := by rw [State.nodes, hlist, ← hnodes, State.nodes]
      obtain ⟨hpre', hxs'⟩ := hwf.split htnodes
      have hgood' : t.GoodNodes (pre ++ rest) := hpre'.append (forall_mem_cons.mp hxs').2
      obtain ⟨hwf', habs'⟩ := setNodes_spec (i := i) hwf x.ptr.len hgood' (by
          rw [htnodes, total_append, total_append, total_cons]
          omega) (by omega)
      have hnodes' : (setNodes t i (pre ++ rest) x.ptr.len).nodes i = pre ++ rest := nodes_withNodes_self
      obtain ⟨u, hu, hwfu, habsu⟩ := spliceLoop_spec hi pre rest (setNodes t i (pre ++ rest) x.ptr.len) fuel 0
        (len + 1 - (x.ptr.len - off)) hwf' hnodes' (.inl rfl) (by omega) (by omega) (by omega)
      refine ⟨u, ?_, hwfu, ?_⟩
      · simp only [if_neg hpart, h1, h2, ht, bind_some, (segment_at htnodes).2, hu]
      · have hraws' : (setNodes t i (pre ++ rest) x.ptr.len).raws = s.raws := hraws
        rw [habsu, habs', habs, hraws', hraws, ← give_set _ hi, slice_append (by omega) (by omega), hlen]
        rw [take_of_length_le (by rw [length_drop]; omega), ← give_set _ hi, give_append]
        have hpast : (x.ptr.bytes s.raws ++ bytesOf s.raws rest).drop (off + (len + 1)) =
            (bytesOf s.raws rest).drop (len + 1 - (x.ptr.len - off)) := by
          rw [drop_append, drop_eq_nil_of_le (by omega), nil_append, hlen]
          congr 1
          omega
        simp only [Strings.set, update_idem, drop_zero, zero_add, hpast]

theorem splice_spec (h : WF s) (hs : (abs s).Small) (hi : claimBy ≠ some i)
    (hle : off + len ≤ (s.content i).length) (hlen : 0 < len) :
    ∃ t, splice s i off len claimBy = some t ∧ WF t ∧
      abs t = ((abs s).set i ((s.content i).take off ++ (s.content i).drop (off + len))).give claimBy
        (((s.content i).drop off).take len) := by
  have hlt : (s.content i).length < 2 ^ 32 := hs i
  have htotal := h.length_content i
  obtain ⟨pre, rest, r, hskip, hstop⟩ := skip_spec (s.nodes i) off (by omega)
  have hsum : total (s.nodes i) = total pre + total rest := by rw [hstop.split, total_append]
  have hoff := hstop.off
  obtain ⟨hpre, hrest⟩ := h.split hstop.split
  have hplen : (bytesOf s.raws pre).length = total pre := length_bytesOf pre hpre
  -- the three parts of the content, from where the walk stops
  have hc : s.content i = bytesOf s.raws pre ++ bytesOf s.raws rest := by
    rw [content_eq, hstop.split, bytesOf_append]
  have htake : (s.content i).take off = bytesOf s.raws pre ++ (bytesOf s.raws rest).take r := by
    rw [hc, ← hoff, ← hplen, take_append, take_of_length_le (Nat.le_add_right _ _), Nat.add_sub_cancel_left]
  have hdrop : ∀ k, (s.content i).drop (off + k) = (bytesOf s.raws rest).drop (r + k) := by
    intro k
    rw [hc, ← hoff, ← hplen, drop_append, drop_eq_nil_of_le (by omega), nil_append]
    congr 1
    omega
  have hcut : ((s.content i).drop off).take len = ((bytesOf s.raws rest).drop r).take len := by
    have h0 := hdrop 0
    rw [add_zero, add_zero] at h0
    rw [h0]
  have hfuel : (s.nodes i).length ≤ (len + 1) * ((s.nodes i).length + 1) := by
    calc (s.nodes i).length ≤ (s.nodes i).length + 1 := Nat.le_succ _
      _ ≤ (len + 1) * ((s.nodes i).length + 1) := Nat.le_mul_of_pos_left _ (Nat.succ_pos len)
  have hrlen : rest.length ≤ (s.nodes i).length := by
    rw [hstop.split, length_append]
    omega
  have hguard : off < s.length i ∧ 0 < len := by
    rw [h.length_eq hs]
    omega
  simp only [splice]
  rw [if_pos hguard, hskip, bind_some, htake, hdrop len, hcut]
  by_cases hr : r = 0
  · rw [if_pos hr]
    obtain ⟨t, ht, hwf, habs⟩ := spliceLoop_spec hi pre rest s _ 0 len h hstop.split (.inl rfl) (by omega) (by omega)
      (hrlen.trans hfuel)
    refine ⟨t, ht, hwf, ?_⟩
    rw [habs, hr, take_zero, append_nil]
  · -- the front of the segment is kept as a segment of its own
    rw [if_neg hr]
    obtain ⟨x, ys, rfl, hrx⟩ := hstop.inside.resolve_left hr
    have hx : s.Good x.ptr := hrest x mem_cons_self
    have hfit : 0 + r ≤ x.ptr.len := by omega
    have hfront : s.GoodNodes (pre ++ ⟨s.next, ⟨x.ptr.raw, x.ptr.off + 0, r⟩⟩ :: x :: ys) :=
      hpre.append (hrest.cons (hx.sub hfit))
    have hwf0 : WF (withNodes s i (pre ++ ⟨s.next, ⟨x.ptr.raw, x.ptr.off + 0, r⟩⟩ :: x :: ys)
        (u32 ((s.lists i).len + r)) (s.next + 1)) := by
      refine h.withNodes hfront ?_
      have hl : (s.lists i).len = u32 (total (s.nodes i)) := h.len i
      have htot : total (⟨s.next, ⟨x.ptr.raw, x.ptr.off + 0, r⟩⟩ :: x :: ys) = r + total (x :: ys) := total_cons _ _
      rw [hl, u32_add_u32, hsum, total_append, htot]
      congr 1
      omega
    obtain ⟨t, ht, hwf, habs⟩ := spliceLoop_spec hi (pre ++ [⟨s.next, ⟨x.ptr.raw, x.ptr.off + 0, r⟩⟩]) (x :: ys) _
      ((len + 1) * ((s.nodes i).length + 1)) r len hwf0
      (by rw [nodes_withNodes_self, append_assoc]; rfl) (.inr ⟨hlen, x, ys, rfl, hrx⟩) (by omega) (by omega)
      (hrlen.trans hfuel)
    refine ⟨t, ?_, hwf, ?_⟩
    · rw [head?_cons, bind_some, hx.sub_eq h hfit, bind_some]
      rw [length_append] at ht
      exact ht
    · have hxlen := hx.length_bytes
      have hbytes : bytesOf s.raws [⟨s.next, ⟨x.ptr.raw, x.ptr.off + 0, r⟩⟩] = (bytesOf s.raws (x :: ys)).take r := by
        rw [bytesOf_cons, bytesOf_nil, append_nil, bytesOf_cons, bytes_sub s.raws hfit, drop_zero,
          take_append_of_le_length (by omega)]
      have hraws : (withNodes s i (pre ++ ⟨s.next, ⟨x.ptr.raw, x.ptr.off + 0, r⟩⟩ :: x :: ys)
        (u32 ((s.lists i).len + r)) (s.next + 1)).raws = s.raws := rfl
      rw [habs, abs_withNodes, hraws]
      simp only [Strings.set, update_idem, bytesOf_append, hbytes]

end cut

/-! ### Every operation -/

variable {b : Bytes} {a : Strings n}

theorem map_setSmall {α : Type} {i : Fin n} {f : Strings n → α} {r : α}
    (h : (a.setSmall i b).map f = some r) : b.length < 2 ^ 32 ∧ f (a.set i b) = r := by
  obtain ⟨a', ha, heq⟩ := map_eq_some_iff.mp h
  obtain ⟨hlt, ⟨⟩⟩ := ite_none_right_eq_some.mp ha
  exact ⟨hlt, heq⟩

theorem Strings.Small.set (ha : a.Small) (i : Fin n) (hb : b.length < 2 ^ 32) :
    (a.set i b).Small := by
  intro j
  simp only [Strings.set, update_apply]
  by_cases hj : j = i
  · rwa [if_pos hj]
  · rw [if_neg hj]
    exact ha j

variable {s : State n}

theorem hold_spec (h : WF s) {p : Ptr} (hp : s.Good p) : WF { s with held := s.held ++ [p] } ∧
      abs { s with held := s.held ++ [p] } = { abs s with held := (abs s).held ++ [p.bytes s.raws] } := by
  refine ⟨⟨h.small, ?_, h.len, h.buffer, h.apart⟩, Strings.ext rfl ?_⟩
  · rintro q (hq | hq)
    · exact ⟨(h.good q (.inl hq)).inside, (h.good q (.inl hq)).used⟩
    · rcases mem_append.mp hq with hq | hq
      · exact ⟨(h.good q (.inr hq)).inside, (h.good q (.inr hq)).used⟩
      · rw [mem_singleton.mp hq]
        exact ⟨hp.inside, hp.used⟩
  · simp only [abs, map_append, map_cons, map_nil]

theorem held_spec (h : WF s) {k : ℕ} (hb : (abs s).held[k]? = some b) :
    ∃ p, s.held[k]? = some p ∧ s.Good p ∧ p.bytes s.raws = b := by
  rw [abs, getElem?_map] at hb
  obtain ⟨p, hp, hpb⟩ := map_eq_some_iff.mp hb
  exact ⟨p, hp, h.good p (.inr (mem_of_getElem? hp)), hpb⟩

variable {m : Machine}

/-- An operation on a well-formed pool does what it does to byte strings. -/
theorem apply_refines (h : WF s) (hs : (abs s).Small) {op : Op n} {a' : Strings n}
    {out : Bytes} (hop : spec m (abs s) op = some (a', out)) :
    ∃ s', apply m s op = some (s', out) ∧ WF s' ∧ abs s' = a' ∧ a'.Small := by
  cases op with
  | create data =>
    obtain ⟨hlt, heq⟩ := ite_none_right_eq_some.mp hop
    have hgood : (addRaw s data).Good ⟨some s.raws.length, 0, data.length⟩ := good_new h (by rw [zero_add])
    obtain ⟨hwf, habs⟩ := hold_spec (h.addRaw hlt) hgood
    cases heq
    refine ⟨_, rfl, hwf, habs.trans ?_, hs⟩
    rw [abs_addRaw h, addRaw, bytes_new, drop_zero, take_length]
  | sub k o l =>
    obtain ⟨b, hb, hop⟩ := bind_eq_some_iff.mp hop
    obtain ⟨p, hp, hgood, rfl⟩ := held_spec h hb
    rw [hgood.length_bytes] at hop
    obtain ⟨hle, heq⟩ := ite_none_right_eq_some.mp hop
    obtain ⟨hwf, habs⟩ := hold_spec h (hgood.sub hle)
    cases heq
    refine ⟨_, by rw [apply, hp, bind_some, hgood.sub_eq h hle]; rfl, hwf, ?_, hs⟩
    rw [habs, bytes_sub s.raws hle]
  | append i data =>
    obtain ⟨hlen, hop⟩ := ite_none_right_eq_some.mp hop
    obtain ⟨hlt, heq⟩ := map_setSmall hop
    obtain ⟨t, ht, hwf, habs⟩ := append_spec (i := i) h m hlen
    cases heq
    exact ⟨t, by rw [apply, ht]; rfl, hwf, habs, hs.set i hlt⟩
  | appendPtr i k =>
    obtain ⟨b, hb, hop⟩ := bind_eq_some_iff.mp hop
    obtain ⟨p, hp, hgood, rfl⟩ := held_spec h hb
    obtain ⟨hlt, heq⟩ := map_setSmall hop
    have hps : ∀ q ∈ [p], s.Good q := by
      intro q hq
      rwa [mem_singleton.mp hq]
    have hsum : u32 p.len = u32 ([p].map (·.len)).sum := by simp
    obtain ⟨hwf, habs⟩ := h.appendPtrs (i := i) hps hsum
    cases heq
    refine ⟨_, by rw [apply, hp]; rfl, hwf, ?_, hs.set i hlt⟩
    rw [flatMap_cons, flatMap_nil, append_nil] at habs
    exact habs
  | appendRange i k off len =>
    obtain ⟨b, hb, hop⟩ := bind_eq_some_iff.mp hop
    obtain ⟨p, hp, hgood, rfl⟩ := held_spec h hb
    rw [hgood.length_bytes] at hop
    obtain ⟨hle, hop⟩ := ite_none_right_eq_some.mp hop
    obtain ⟨hlt, heq⟩ := map_setSmall hop
    obtain ⟨t, ht, hwf, habs⟩ := h.appendRange (i := i) hgood hle
    cases heq
    exact ⟨t, by rw [apply, hp, bind_some, ht]; rfl, hwf, habs, hs.set i hlt⟩
  | appendList i j =>
    obtain ⟨hij, hop⟩ := ite_none_right_eq_some.mp hop
    obtain ⟨hlt, heq⟩ := map_setSmall hop
    obtain ⟨t, ht, hwf, habs⟩ := appendList_spec h hij
    cases heq
    exact ⟨t, by rw [apply, ht]; rfl, hwf, habs, hs.set i hlt⟩
  | appendZero i len =>
    obtain ⟨hlt, heq⟩ := map_setSmall hop
    have hlen : len < 2 ^ 32 := by
      rw [length_append, length_replicate] at hlt
      omega
    obtain ⟨hwf, habs⟩ := appendZero_spec (i := i) h hlen
    cases heq
    exact ⟨_, rfl, hwf, habs, hs.set i hlt⟩
  | clear i =>
    obtain ⟨hwf, habs⟩ := clear_spec h i
    cases hop
    exact ⟨_, rfl, hwf, habs, hs.set i (by decide)⟩
  | claim i j =>
    obtain ⟨hij, heq⟩ := ite_none_right_eq_some.mp hop
    obtain ⟨t, ht, hwf, habs⟩ := claim_spec h hij
    cases heq
    exact ⟨t, by rw [apply, ht]; rfl, hwf, habs, (hs.set i (hs j)).set j (by decide)⟩
  | claimAppend i j =>
    obtain ⟨hij, hop⟩ := ite_none_right_eq_some.mp hop
    obtain ⟨hlt, heq⟩ := map_setSmall hop
    obtain ⟨t, ht, hwf, habs⟩ := claimAppend_spec h hij
    cases heq
    exact ⟨t, by rw [apply, ht]; rfl, hwf, habs, (hs.set i hlt).set j (by decide)⟩
  | swap i j =>
    obtain ⟨hwf, habs⟩ := swap_spec h i j
    cases hop
    exact ⟨_, rfl, hwf, habs, (hs.set i (hs j)).set j (hs i)⟩
  | assign i j =>
    obtain ⟨hwf, habs⟩ := assign_spec h i j
    cases hop
    exact ⟨_, rfl, hwf, habs, hs.set i (hs j)⟩
  | substrOf i j off len =>
    obtain ⟨⟨hij, hle⟩, heq⟩ := ite_none_right_eq_some.mp hop
    obtain ⟨t, ht, hwf, habs⟩ := substrOf_spec h hs hij hle
    cases heq
    refine ⟨t, by rw [apply, ht]; rfl, hwf, habs, hs.set i ?_⟩
    have hj := hs j
    rw [length_take, length_drop]
    omega
  | splice i off len claimBy =>
    obtain ⟨⟨hle, hlen⟩, hop⟩ := ite_none_right_eq_some.mp hop
    have hcut : ((abs s).lists i).length < 2 ^ 32 := hs i
    have hrest : (((abs s).lists i).take off ++ ((abs s).lists i).drop (off + len)).length < 2 ^ 32 := by
      rw [length_append, length_take, length_drop]
      omega
    cases claimBy with
    | none =>
      have hclaim : (none : Option (Fin n)) ≠ some i := by simp
      obtain ⟨t, ht, hwf, habs⟩ := splice_spec h hs hclaim hle hlen
      cases hop
      exact ⟨t, by rw [apply, ht]; rfl, hwf, habs, hs.set i hrest⟩
    | some j =>
      obtain ⟨hij, hop⟩ := ite_none_right_eq_some.mp hop
      obtain ⟨hlt, heq⟩ := map_setSmall hop
      have hclaim : some j ≠ some i := fun hc => hij (some.inj hc).symm
      obtain ⟨t, ht, hwf, habs⟩ := splice_spec h hs hclaim hle hlen
      cases heq
      refine ⟨t, by rw [apply, ht]; rfl, hwf, ?_, (hs.set i hrest).set j hlt⟩
      rw [habs]
      simp only [Strings.give, Strings.set, update_of_ne (Ne.symm hij)]
      rfl
  | rebuild i =>
    obtain ⟨t, ht, hwf, habs, -⟩ := rebuild_spec (i := i) h hs m
    cases hop
    exact ⟨t, by rw [apply, ht]; rfl, hwf, habs, hs⟩
  | cStr i =>
    obtain ⟨t, p, ht, hwf, habs, hp⟩ := cStr_spec (i := i) h hs m
    cases hop
    exact ⟨t, by rw [apply, ht, map_some, hp]; rfl, hwf, habs, hs⟩
  | getByte i k =>
    obtain ⟨b, hb, heq⟩ := map_eq_some_iff.mp hop
    have hget := getByte_spec (i := i) h hs (List.getElem?_eq_some_iff.mp hb).1
    cases heq
    refine ⟨s, ?_, h, rfl, hs⟩
    rw [apply, hget]
    exact congrArg (Option.map fun b => (s, [b])) hb

/-- **A bufferlist is a byte string.** From any well-formed pool, whatever the
segments of its lists, a sequence of operations that is allowed on the byte
strings returns; it leaves the lists with the contents, and returns the bytes,
that it does on byte strings, and `length()` is the sum of the segments. -/
theorem lists_are_strings (m : Machine) (s : State n) (h : WF s) (hs : (abs s).Small) (ops : List (Op n))
    (a : Strings n) (outs : List Bytes) (hrun : Run.trace (spec m) ops (abs s) = some (a, outs)) :
    ∃ t, Run.trace (apply m) ops s = some (t, outs) ∧ WF t ∧ abs t = a ∧
      ∀ i, t.length i = total (t.nodes i) ∧ t.length i = (a.lists i).length := by
  have hstep : ∀ (s : State n) (a : Strings n) (op : Op n) (a' : Strings n) (out : Bytes),
      (WF s ∧ abs s = a ∧ a.Small) → spec m a op = some (a', out) →
      ∃ s', apply m s op = some (s', out) ∧ (WF s' ∧ abs s' = a' ∧ a'.Small) := by
    rintro s a op a' out ⟨hwf, rfl, hsmall⟩ hop
    exact apply_refines hwf hsmall hop
  obtain ⟨t, ht, hwf, habs, hsmall⟩ := Run.trace_simulates hstep ops s (abs s) a outs ⟨h, rfl, hs⟩ hrun
  refine ⟨t, ht, hwf, habs, fun i => ?_⟩
  rw [← habs] at hsmall ⊢
  have hlen := hwf.length_eq hsmall i
  exact ⟨hlen.trans (hwf.length_content i), hlen⟩

theorem init_wf (n : ℕ) : WF (init n) where
  small := nofun
  good := by
    rintro p (⟨i, x, hx, -⟩ | hp)
    · nomatch hx
    · nomatch hp
  len := fun i => rfl
  buffer := fun i r hi => nomatch hi
  apart := fun i j r hi => nomatch hi

/-- Pages of 4096 bytes, and memory that is zero. -/
def page4k : Machine := ⟨4096, by decide, by decide, fun _ _ => 0⟩

/-- Two lists that share their segments. -/
theorem lists_are_strings_shared :
    ∃ t : State 2, Run.trace (apply page4k)
      [.append 0 [1, 2, 3, 4, 5, 6], .create [7, 8, 9], .appendRange 0 0 1 2, .appendList 1 0, .append 0 [10],
        .splice 1 3 4 none, .substrOf 0 1 2 2, .cStr 1, .getByte 0 1] (State.init 2) =
        some (t, [[], [], [], [], [], [], [], [1, 2, 3, 9], [9]]) ∧
      t.content 0 = [3, 9] ∧ t.content 1 = [1, 2, 3, 9] ∧ t.length 1 = 4 := by
  obtain ⟨⟨a, outs⟩, hrun, heq⟩ := map_eq_some_iff.mp (show
    ((Run.trace (spec page4k) [.append 0 [1, 2, 3, 4, 5, 6], .create [7, 8, 9], .appendRange 0 0 1 2,
      .appendList 1 0, .append 0 [10], .splice 1 3 4 none, .substrOf 0 1 2 2, .cStr 1, .getByte 0 1]
      (abs (init 2))).map fun r => (r.1.lists 0, r.1.lists 1, r.2)) =
        some ([3, 9], [1, 2, 3, 9], [[], [], [], [], [], [], [], [1, 2, 3, 9], [9]]) by decide +kernel)
  have hsmall : (abs (init 2)).Small := fun i => show (0 : ℕ) < 2 ^ 32 by decide
  obtain ⟨t, ht, -, habs, hlen⟩ := lists_are_strings page4k (init 2) (init_wf 2) hsmall _ a outs hrun
  simp only [Prod.mk.injEq] at heq
  obtain ⟨h0, h1, rfl⟩ := heq
  rw [← habs] at h0 h1 hlen
  refine ⟨t, ht, h0, h1, ?_⟩
  rw [(hlen 1).2, h1]
  rfl

/-- Where the length of a new append buffer wraps to 0, `append` never ends. -/
theorem append_wraps {data : Bytes} (hdata : data ≠ [])
    (hwrap : u32 (m.pageSize * ((data.length - 1) / m.pageSize + 1)) = 0) : append m (init 1) 0 data = none := by
  have h0 : gap (init 1) 0 = 0 := rfl
  have h1 : gap (newAppendBuffer m (init 1) 0 data.length) 0 = 0 := by
    have hwf := (init_wf 1).newAppendBuffer (i := 0) m data.length
    have hab := appendBuffer_newAppendBuffer (s := init 1) (i := 0) m data.length 0
    rw [gap_eq hwf (r := 0) (by rw [hab]; rfl) rfl, length_create, hwrap]
    exact Nat.zero_sub _
  rw [append, appendLoop, if_neg hdata, fillGap_zero h0, bind_some, if_neg hdata, appendLoop, if_neg hdata,
    fillGap_zero h1, bind_some, if_neg hdata, appendLoop, if_neg hdata]

theorem length_appendZero (s : State n) (i : Fin n) (len : ℕ) :
    (appendZero s i len).length i = u32 (s.length i + len) := by
  simp only [appendZero, appendPtr, appendPtrs, State.set, State.length, update_self]

theorem total_appendZero (s : State n) (i : Fin n) (len : ℕ) :
    total ((appendZero s i len).nodes i) = total (s.nodes i) + len := by
  simp only [appendZero, appendPtr, appendPtrs, State.set, State.nodes, update_self, mkNodes, total_append,
    total_cons, total_nil, add_zero]

/-- Beyond 2^32 bytes `length()` is not the sum of the segments; and these do not
return: a list appended to itself, `c_str` with a null pointer among the
segments, and an `append` whose buffer would have 2^32 bytes. -/
theorem lists_not_strings :
    (∃ t, Run.trace (apply page4k) [.appendZero 0 (2 ^ 31), .appendZero 0 (2 ^ 31)] (State.init 1) =
        some (t, [[], []]) ∧ t.length 0 = 0 ∧ total (t.nodes 0) = 2 ^ 32) ∧
      (Run.trace (apply page4k) [.append 0 [1], .appendList 0 0] (State.init 1)).isNone ∧
      (Run.trace (apply page4k) [.appendPtr 0 0, .append 0 [1], .cStr 0]
        { State.init 1 with held := [Ptr.null] }).isNone ∧
      append page4k (State.init 1) 0 (List.replicate (2 ^ 32 - 1) 7) = none := by
  refine ⟨⟨appendZero (appendZero (init 1) 0 (2 ^ 31)) 0 (2 ^ 31), ?_, ?_, ?_⟩, by decide +kernel,
    by decide +kernel, append_wraps ?_ ?_⟩
  · simp only [Run.trace, apply, bind_some, map_some]
  · rw [length_appendZero, length_appendZero]
    rfl
  · rw [total_appendZero, total_appendZero]
    rfl
  · exact ne_nil_of_length_pos (by rw [length_replicate]; decide)
  · rw [length_replicate]
    decide

end Buffer
end Ceph
