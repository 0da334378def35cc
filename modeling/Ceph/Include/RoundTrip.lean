/-
# Decoding what was encoded

The encoding of a value is the byte string `bytes`, in parts: the ranges that are
appended and the segments of the pointers. `copy` never gets on at an empty
segment, so what decides whether the value is decoded is where the empty parts
are.
-/
import Ceph.Include.Copying

namespace Ceph
namespace Buffer

open List Option
open Wire (Bytes)
open State

variable {n : ℕ}

/-! ### Encodings -/

/-- The length of `b`, then `b`. -/
def counted (b : Bytes) : Bytes := Wire.le 4 b.length ++ b

/-- What a value is encoded as. -/
def bytes : (t : Ty) → View t → Bytes
  | .base _, b => b.1
  | .string, b => counted b
  | .ptr, b => counted b
  | .buffer, b => counted b
  | .list t, xs => Wire.le 4 xs.length ++ List.flatMap (bytes t) xs
  | .deque t, xs => Wire.le 4 xs.length ++ List.flatMap (bytes t) xs
  | .set t, xs => Wire.le 4 xs.length ++ List.flatMap (bytes t) xs
  | .vector t, xs => Wire.le 4 xs.length ++ List.flatMap (bytes t) xs
  | .map k v, xs => Wire.le 4 xs.length ++ List.flatMap (fun p => bytes k p.1 ++ bytes v p.2) xs

/-- The pointers in a value. -/
def ptrsOf : (t : Ty) → Value t → List Ptr
  | .base _, _ => []
  | .string, _ => []
  | .ptr, p => [p]
  | .buffer, ps => ps
  | .list t, xs => List.flatMap (ptrsOf t) xs
  | .deque t, xs => List.flatMap (ptrsOf t) xs
  | .set t, xs => List.flatMap (ptrsOf t) xs
  | .vector t, xs => List.flatMap (ptrsOf t) xs
  | .map k v, xs => List.flatMap (fun p => ptrsOf k p.1 ++ ptrsOf v p.2) xs

/-- The lengths of segments. -/
def lens (ps : List Ptr) : List ℕ := ps.map (·.len)

/-- The lengths of the parts of an encoding: of what is appended as bytes, and of the
segments. -/
def parts : (t : Ty) → Value t → List ℕ
  | .base k, _ => [k + 1]
  | .string, b => [4 + b.length]
  | .ptr, p => [4, p.len]
  | .buffer, ps => 4 :: lens ps
  | .list t, xs => 4 :: List.flatMap (parts t) xs
  | .deque t, xs => 4 :: List.flatMap (parts t) xs
  | .set t, xs => 4 :: List.flatMap (parts t) xs
  | .vector t, xs => 4 :: List.flatMap (parts t) xs
  | .map k v, xs => 4 :: List.flatMap (fun p => parts k p.1 ++ parts v p.2) xs

/-- The offsets of the empty parts, if the first is at `o`. -/
def gaps : ℕ → List ℕ → List ℕ
  | _, [] => []
  | o, l :: ls => (if l = 0 then [o] else []) ++ gaps (o + l) ls

theorem gaps_append : ∀ (o : ℕ) (ls ls' : List ℕ), gaps o (ls ++ ls') = gaps o ls ++ gaps (o + ls.sum) ls'
  | o, [], ls' => rfl
  | o, l :: ls, ls' => by
    rw [cons_append, gaps, gaps, gaps_append, sum_cons, add_assoc, append_assoc]

theorem gaps_lens : ∀ (o : ℕ) (ps : List Ptr), gaps o (lens ps) = holes o ps
  | o, [] => rfl
  | o, p :: ps => by rw [lens, map_cons, gaps, holes, ← lens, gaps_lens]

theorem gaps_add : ∀ (o k : ℕ) (ls : List ℕ), gaps (o + k) ls = (gaps k ls).map (o + ·)
  | o, k, [] => rfl
  | o, k, l :: ls => by
    rw [gaps, gaps, map_append, add_assoc, gaps_add o (k + l) ls]
    by_cases hl : l = 0
    · rw [if_pos hl, if_pos hl, map_singleton]
    · rw [if_neg hl, if_neg hl, map_nil]

theorem gaps_le : ∀ {o q : ℕ} {ls : List ℕ}, q ∈ gaps o ls → o ≤ q ∧ q ≤ o + ls.sum
  | o, q, [], h => nomatch h
  | o, q, l :: ls, h => by
    rw [gaps] at h
    rw [sum_cons]
    rcases mem_append.mp h with h | h
    · by_cases hz : l = 0
      · rw [if_pos hz] at h
        have := mem_singleton.mp h
        omega
      · rw [if_neg hz] at h
        nomatch h
    · have := gaps_le h
      omega

section lists

variable {α β : Type}

theorem length_le_flatMap {f : α → List β} (hf : ∀ x, 0 < (f x).length) : ∀ xs : List α,
    xs.length ≤ (xs.flatMap f).length
  | [] => le_refl 0
  | x :: xs => by
    have hx := hf x
    have ih := length_le_flatMap hf xs
    rw [flatMap_cons, List.length_append, length_cons]
    omega

end lists

theorem length_counted (b : Bytes) : (counted b).length = 4 + b.length := by
  rw [counted, List.length_append, Wire.length_le]

theorem length_counted_pos (b : Bytes) : 0 < (counted b).length := by
  rw [length_counted]
  omega

theorem bytes_pos : ∀ (t : Ty) (v : View t), 0 < (bytes t v).length
  | .base k, b => by
    show 0 < b.1.length
    have := b.2
    omega
  | .string, b => length_counted_pos b
  | .ptr, b => length_counted_pos b
  | .buffer, b => length_counted_pos b
  | .list t, xs => by simp [bytes]
  | .deque t, xs => by simp [bytes]
  | .set t, xs => by simp [bytes]
  | .vector t, xs => by simp [bytes]
  | .map k v, xs => by simp [bytes]

/-! ### What was written stays -/

section later

variable {i : Fin n} {s t u : State n} {new : List Cell} {hs : List ℕ}

theorem Wrote.used (h : Wrote i s t new hs) : ∀ c ∈ new, t.Used c := by
  intro c hc
  have hmem : c ∈ Buffer.cells (t.ptrs i) := by
    rw [h.cells]
    exact mem_append_right _ hc
  obtain ⟨p, hp, hcp⟩ := mem_flatMap.mp hmem
  exact (h.sound.wf.good_ptrs i p hp).used_cells hcp

theorem Wrote.read_later (h : Wrote i s t new hs) (hl : Later t u) :
    new.map (read u.raws) = new.map (read t.raws) :=
  map_congr_left fun c hc => hl.keep c (h.used c hc)

end later

/-! ### Encoding -/

section encoders

variable {i : Fin n} {s0 : State n}

/-- `f` appends `b` to list `i`, in parts `ls`, using only bytes that nothing else
uses and those of `ps`. It may not return if there is an empty segment on the way,
at which a list's count cannot be copied in. -/
structure Encodes (s0 : State n) (i : Fin n) (f : State n → Option (State n)) (ps : List Ptr) (b : Bytes)
    (ls : List ℕ) : Prop where
  sum : ls.sum = b.length
  wrote : ∀ {s t}, Later s0 s → Sound s → Firm s i → (s.content i).length + b.length < 2 ^ 31 → f s = some t →
    ∃ new, Wrote i s t new (gaps (s.content i).length ls) ∧ Firm t i ∧ new.map (read t.raws) = b ∧
      ∀ c ∈ new, ¬ s.Used c ∨ ∃ p ∈ ps, c ∈ p.cells
  some : ∀ {s}, Later s0 s → Sound s → Firm s i → (s.content i).length + b.length < 2 ^ 31 →
    (∀ q ∈ holes 0 (s.ptrs i) ++ gaps (s.content i).length ls,
      ¬ ((s.content i).length ≤ q ∧ q < (s.content i).length + b.length)) →
    ∃ t, f s = some t

variable {f g : State n → Option (State n)}

variable {b b' : Bytes} {ps ps' : List Ptr}

theorem Encodes.congr {ls ls' : List ℕ}
    (h : Encodes s0 i f ps b ls) (hf : ∀ s, g s = f s) (hps : ps ⊆ ps') (hb : b' = b) (hsum : ls'.sum = ls.sum)
    (hls : ∀ o, gaps o ls' = gaps o ls) : Encodes s0 i g ps' b' ls' := by
  subst hb
  refine ⟨hsum.trans h.sum, fun {s t} hl hs hfirm hroom ht => ?_, fun {s} hl hs hfirm hroom hq => ?_⟩
  · obtain ⟨new, hw, hft, hb, hc⟩ := h.wrote hl hs hfirm hroom ((hf s).symm.trans ht)
    rw [← hls] at hw
    exact ⟨new, hw, hft, hb, fun c hcn => (hc c hcn).imp_right fun ⟨p, hp, hcp⟩ => ⟨p, hps hp, hcp⟩⟩
  · obtain ⟨t, ht⟩ := h.some hl hs hfirm hroom (by rwa [← hls])
    exact ⟨t, (hf s).trans ht⟩

theorem encodes_nil (s0 : State n) (i : Fin n) : Encodes s0 i (fun s => some s) [] [] [] where
  sum := rfl
  wrote := by
    rintro s t - hs hfirm - ⟨rfl⟩
    exact ⟨[], .refl hs, hfirm, rfl, nofun⟩
  some := fun _ _ _ _ _ => ⟨_, rfl⟩

/-- One thing is encoded after another. -/
theorem Encodes.append {ls ls' : List ℕ}
    (hf : Encodes s0 i f ps b ls) (hg : Encodes s0 i g ps' b' ls') :
    Encodes s0 i (fun s => (f s).bind g) (ps ++ ps') (b ++ b') (ls ++ ls') where
  sum := by rw [sum_append, hf.sum, hg.sum, List.length_append]
  wrote := by
    intro s u hl hs hfirm hroom hu
    rw [List.length_append] at hroom
    obtain ⟨t, ht, hu⟩ := bind_eq_some_iff.mp hu
    obtain ⟨new, hw, hft, hb, hc⟩ := hf.wrote hl hs hfirm (by omega) ht
    have hlen : (t.content i).length = (s.content i).length + b.length := by
      rw [hw.length_content hs, ← hb, length_map]
    obtain ⟨new', hw', hfu, hb', hc'⟩ := hg.wrote (hl.trans hw.later) hw.sound hft (by omega) hu
    refine ⟨new ++ new', ?_, hfu, ?_, fun c hcn => ?_⟩
    · rw [gaps_append, hf.sum, ← hlen]
      exact hw.trans hw'
    · rw [map_append, hb', hw.read_later hw'.later, hb]
    · rcases mem_append.mp hcn with hcn | hcn
      · exact (hc c hcn).imp_right fun ⟨p, hp, hcp⟩ => ⟨p, mem_append_left _ hp, hcp⟩
      · rcases hc' c hcn with hun | ⟨p, hp, hcp⟩
        · exact .inl fun hused => hun (hw.later.used c hused)
        · exact .inr ⟨p, mem_append_right _ hp, hcp⟩
  some := by
    intro s hl hs hfirm hroom hq
    rw [List.length_append] at hroom hq
    obtain ⟨t, ht⟩ := hf.some hl hs hfirm (by omega) fun q hmem hr => by
      refine hq q ?_ ⟨hr.1, by omega⟩
      rw [gaps_append, ← append_assoc]
      exact mem_append_left _ hmem
    obtain ⟨new, hw, hft, hb, -⟩ := hf.wrote hl hs hfirm (by omega) ht
    have hlen : (t.content i).length = (s.content i).length + b.length := by
      rw [hw.length_content hs, ← hb, length_map]
    obtain ⟨u, hu⟩ := hg.some (hl.trans hw.later) hw.sound hft (by omega) fun q hmem hr => by
      rw [hw.holes, hlen, ← hf.sum, append_assoc, ← gaps_append] at hmem
      exact hq q hmem ⟨by omega, by omega⟩
    exact ⟨u, by rw [ht, bind_some, hu]⟩

variable {m : Machine}

theorem le_ne_nil (k : ℕ) : Wire.le 4 k ≠ [] := by
  intro h
  have := congrArg List.length h
  cases this

/-- What an `append` of a range that is not empty does. -/
theorem raw_wrote (m : Machine) {s : State n} (hs : Sound s) (hfirm : Firm s i) (hb : b ≠ [])
    (hroom : (s.content i).length + b.length < 2 ^ 31) :
    ∃ t new, encodeRaw m i b s = some t ∧ Wrote i s t new [] ∧ Firm t i ∧ Fresh s t new b ∧
      ∀ p, s.Good p → Behind t i p := by
  have hpage := m.pageSize_le
  rw [hs.wf.length_content i] at hroom
  exact append_wrote hs hfirm hb (by omega) (by omega)

theorem encodes_raw (m : Machine) (s0 : State n) (i : Fin n) (hb : b ≠ []) :
    Encodes s0 i (encodeRaw m i b) [] b [b.length] := by
  have hpos : b.length ≠ 0 := ne_of_gt (length_pos_iff.mpr hb)
  refine ⟨by simp, fun {s t} _ hs hfirm hroom ht => ?_, fun {s} _ hs hfirm hroom _ => ?_⟩
  · obtain ⟨t', new, ht', hw, hft, hfresh, -⟩ := raw_wrote m hs hfirm hb hroom
    have heq : t = t' := some.inj (ht.symm.trans ht')
    subst heq
    refine ⟨new, ?_, hft, hfresh.read, fun c hc => .inl (hfresh.unused c hc)⟩
    rw [gaps, gaps, if_neg hpos, append_nil]
    exact hw
  · obtain ⟨t, -, ht, -⟩ := raw_wrote m hs hfirm hb hroom
    exact ⟨t, ht⟩

theorem encodes_32 (m : Machine) (s0 : State n) (i : Fin n) (k : ℕ) :
    Encodes s0 i (encode32 m i k) [] (Wire.le 4 k) [4] :=
  (encodes_raw m s0 i (le_ne_nil k)).congr (fun _ => rfl) (.refl _) rfl
    (by rw [Wire.length_le]) fun o => by rw [Wire.length_le]

/-- A length, and then segments. -/
theorem encodes_ptrs (m : Machine) (hps : ∀ p ∈ ps, s0.Good p) :
    Encodes s0 i (fun s => (encode32 m i (ps.map (·.len)).sum s).map fun t => appendPtrs t i ps (ps.map (·.len)).sum)
      ps (counted (ps.flatMap (·.bytes s0.raws))) (4 :: lens ps) := by
  have hsum : (ps.map (·.len)).sum = (ps.flatMap (·.bytes s0.raws)).length := by
    rw [length_flatMap]
    congr 1
    exact map_congr_left fun p hp => (hps p hp).length_bytes.symm
  have h4 := Wire.length_le 4 (ps.map (·.len)).sum
  have hlen := length_counted (ps.flatMap (·.bytes s0.raws))
  rw [← hsum] at hlen
  refine ⟨by rw [sum_cons, hlen]; rfl, fun {s u} hl hs hfirm hroom hu => ?_, fun {s} hl hs hfirm hroom _ => ?_⟩
  · rw [hlen] at hroom
    obtain ⟨t, ht, rfl⟩ := map_eq_some_iff.mp hu
    obtain ⟨t', new, ht', hw, hft, hfresh, hbehind⟩ := raw_wrote (i := i) m hs hfirm
      (le_ne_nil (ps.map (·.len)).sum) (by omega)
    have heq : t = t' := some.inj (ht.symm.trans ht')
    subst heq
    have hgood : ∀ p ∈ ps, t.Good p := fun p hp => hw.later.good p (hl.good p (hps p hp))
    have hnew : new.length = 4 := by rw [← h4, ← hfresh.read, length_map]
    have htlen : (t.content i).length = (s.content i).length + 4 := by rw [hw.length_content hs, hnew]
    have hw' := appendPtrs_wrote (i := i) hw.sound hgood (by rw [← hw.sound.wf.length_content i]; omega)
    refine ⟨new ++ cells ps, ?_, ?_, ?_, fun c hc => ?_⟩
    · have hw2 := hw.trans hw'
      rw [nil_append, htlen, ← gaps_lens] at hw2
      exact hw2
    · intro x hx hz
      have hnodes : (appendPtrs t i ps (ps.map (·.len)).sum).nodes i = t.nodes i ++ mkNodes t.next ps :=
        nodes_withNodes_self
      have hab : (appendPtrs t i ps (ps.map (·.len)).sum).appendBuffer i = t.appendBuffer i :=
        appendBuffer_withNodes i
      rw [hnodes, getLast?_append] at hx
      rw [Behind, hab]
      rcases or_eq_some_iff.mp hx with hx | ⟨-, hx⟩
      · have hmem : x.ptr ∈ ps := by
          rw [← ptrs_mkNodes ps t.next]
          exact mem_map_of_mem (mem_of_getLast? hx)
        exact hbehind x.ptr (hl.good _ (hps _ hmem))
      · exact hft x hx hz
    · rw [map_append, counted, ← hsum, hw.read_later hw'.later, hfresh.read,
        ← bytes_of_cells fun p hp => hw'.later.good p (hgood p hp),
        (hl.trans (hw.later.trans hw'.later)).flatMap_bytes hps]
    · rcases mem_append.mp hc with hc | hc
      · exact .inl (hfresh.unused c hc)
      · exact .inr (mem_flatMap.mp hc)
  · rw [hlen] at hroom
    obtain ⟨t, -, ht, -⟩ := raw_wrote (i := i) m hs hfirm (le_ne_nil (ps.map (·.len)).sum) (by omega)
    exact ⟨_, map_eq_some_iff.mpr ⟨t, ht, rfl⟩⟩

theorem encodes_string (m : Machine) (s0 : State n) (i : Fin n) (hb : b.length < 2 ^ 32) :
    Encodes s0 i (encodeString m i b) [] (counted b) [4 + b.length] := by
  have htake : b.take (u32 b.length) = b := by rw [u32_eq hb, take_length]
  have hgaps : ∀ o, gaps o [4 + b.length] = [] := fun o => by
    rw [gaps, gaps, if_neg (by omega), append_nil]
  by_cases hnil : b = []
  · refine ((encodes_32 m s0 i b.length).append (encodes_nil s0 i)).congr (fun s => ?_) (.refl _) ?_ ?_ ?_
    · rw [encodeString, htake, hnil]
      rfl
    · rw [counted, hnil]
    · rw [hnil]
      rfl
    · intro o
      rw [hgaps]
      rfl
  · refine ((encodes_32 m s0 i b.length).append (encodes_raw m s0 i hnil)).congr (fun s => ?_) (.refl _) rfl
      ?_ ?_
    · rw [encodeString, htake]
      rfl
    · simp
    · intro o
      have hpos : b.length ≠ 0 := ne_of_gt (length_pos_iff.mpr hnil)
      simp [gaps, hpos]

/-! ### Containers -/

section containers

variable {α : Type} {enc : α → State n → Option (State n)} {ps : α → List Ptr} {b : α → Bytes} {ls : α → List ℕ}

theorem encodes_each : ∀ xs : List α, (∀ x ∈ xs, Encodes s0 i (enc x) (ps x) (b x) (ls x)) →
    Encodes s0 i (encodeEach enc xs) (xs.flatMap ps) (xs.flatMap b) (xs.flatMap ls)
  | [], _ => encodes_nil s0 i
  | x :: xs, h => (h x mem_cons_self).append (encodes_each xs fun y hy => h y (mem_cons_of_mem x hy))

theorem encodes_seq (m : Machine) (xs : List α) (h : ∀ x ∈ xs, Encodes s0 i (enc x) (ps x) (b x) (ls x)) :
    Encodes s0 i (encodeSeq m i enc xs) (xs.flatMap ps) (Wire.le 4 xs.length ++ xs.flatMap b) (4 :: xs.flatMap ls) :=
  (encodes_32 m s0 i xs.length).append (encodes_each xs h)

end containers

/-- A count that is copied in later: its cells are in no segment but the one that it
was appended as. -/
theorem encodes_patched (m : Machine) {g : State n → Option (State n)} {ls : List ℕ}
    (hps : ∀ p ∈ ps, s0.Good p) (hg : Encodes s0 i g ps b ls) (k : ℕ) :
    Encodes s0 i (fun s => (encode32 m i 0 s).bind fun t => (g t).bind fun u => copyIn u i (s.length i) (Wire.le 4 k))
      ps (Wire.le 4 k ++ b) (4 :: ls) := by
  have h4 := Wire.length_le 4 k
  have hlen : (Wire.le 4 k ++ b).length = 4 + b.length := by rw [List.length_append, h4]
  have hgaps : ∀ o, gaps o (4 :: ls) = gaps (o + 4) ls := fun o => by rw [gaps, if_neg (by decide), nil_append]
  refine ⟨by rw [sum_cons, hg.sum, hlen], fun {s v} hl hs hfirm hroom hv => ?_,
    fun {s} hl hs hfirm hroom hq => ?_⟩
  · rw [hlen] at hroom
    obtain ⟨t, ht, hv⟩ := bind_eq_some_iff.mp hv
    obtain ⟨u, hu, hv⟩ := bind_eq_some_iff.mp hv
    obtain ⟨t', new, ht', hw, hft, hfresh, -⟩ := raw_wrote (i := i) m hs hfirm (le_ne_nil 0)
      (by rw [Wire.length_le]; omega)
    have heq : t = t' := some.inj (ht.symm.trans ht')
    subst heq
    have hnew : new.length = 4 := by rw [← Wire.length_le 4 0, ← hfresh.read, length_map]
    have htlen : (t.content i).length = (s.content i).length + 4 := by rw [hw.length_content hs, hnew]
    obtain ⟨new', hw', hfu, hb', hc'⟩ := hg.wrote (hl.trans hw.later) hw.sound hft (by omega) hu
    have hulen := hw'.length_content hw.sound
    have hoff : s.length i = (s.content i).length := hs.wf.length_eq hs.abs_small i
    rw [hoff] at hv
    have hle : (s.content i).length + (Wire.le 4 k).length ≤ (u.content i).length := by
      omega
    obtain ⟨hsome, hnone⟩ := copyIn_spec hw'.sound hle
    by_cases hclear : Clear (u.nodes i) (s.content i).length ((s.content i).length + (Wire.le 4 k).length)
    · obtain ⟨v', src, hv', hW⟩ := hsome hclear
      have heq : v = v' := some.inj (hv.symm.trans hv')
      subst heq
      have hptrs : v.ptrs i = u.ptrs i := by rw [State.ptrs, hW.nodes, State.ptrs]
      have hcells : cells (u.ptrs i) = cells (s.ptrs i) ++ (new ++ new') := by
        rw [hw'.cells, hw.cells, append_assoc]
      have hheader : ((cells (u.ptrs i)).drop (s.content i).length).take 4 = new := by
        rw [hcells, hs.length_content i, drop_left, ← hnew, take_left]
      have hpatched := hW.patched
      rw [Nat.add_sub_cancel_left, take_length, h4, hheader] at hpatched
      have hused : ∀ c, t.Used c → c ∉ new → read v.raws c = read t.raws c := fun c hc hcn =>
        (hpatched.keep c hcn).trans (hw'.later.keep c hc)
      have hlater : Later s v := by
        refine ⟨fun p hp => ?_, fun c hc => ?_, fun c hc => ?_⟩
        · exact hpatched.good p (hw'.later.good p (hw.later.good p hp))
        · exact hpatched.used c (hw'.later.used c (hw.later.used c hc))
        · exact (hused c (hw.later.used c hc) fun hcn => hfresh.unused c hcn hc).trans (hw.later.keep c hc)
      refine ⟨new ++ new', ⟨hW.sound, hlater, ?_, ?_⟩, ?_, ?_, fun c hc => ?_⟩
      · rw [hptrs, hcells]
      · rw [hptrs, hw'.holes, hw.holes, append_nil, htlen, hgaps]
      · intro x hx hz
        rw [hW.nodes] at hx
        rw [Behind, hW.buffer]
        exact hfu x hx hz
      · rw [map_append, hpatched.wrote hfresh.nodup, ← hb']
        congr 1
        refine map_congr_left fun c hc => hpatched.keep c fun hcn => ?_
        rcases hc' c hc with hun | ⟨p, hp, hcp⟩
        · exact hun (hw.used c hcn)
        · exact hfresh.unused c hcn ((hl.good p (hps p hp)).used_cells hcp)
      · rcases mem_append.mp hc with hc | hc
        · exact .inl (hfresh.unused c hc)
        · exact (hc' c hc).imp_left fun hun hus => hun (hw.later.used c hus)
    · rw [hnone hclear] at hv
      cases hv
  · rw [hlen] at hroom hq
    obtain ⟨t, new, ht, hw, hft, hfresh, -⟩ := raw_wrote (i := i) m hs hfirm (le_ne_nil 0)
      (by rw [Wire.length_le]; omega)
    have hnew : new.length = 4 := by rw [← Wire.length_le 4 0, ← hfresh.read, length_map]
    have htlen : (t.content i).length = (s.content i).length + 4 := by rw [hw.length_content hs, hnew]
    obtain ⟨u, hu⟩ := hg.some (hl.trans hw.later) hw.sound hft (by omega) fun q hmem hr => by
      rw [hw.holes, append_nil, htlen, ← hgaps] at hmem
      exact hq q hmem ⟨by omega, by omega⟩
    obtain ⟨new', hw', -⟩ := hg.wrote (hl.trans hw.later) hw.sound hft (by omega) hu
    have hulen := hw'.length_content hw.sound
    have hoff : s.length i = (s.content i).length := hs.wf.length_eq hs.abs_small i
    have hle : (s.content i).length + (Wire.le 4 k).length ≤ (u.content i).length := by
      omega
    obtain ⟨hsome, -⟩ := copyIn_spec hw'.sound hle
    obtain ⟨v, src, hv, -⟩ := hsome fun q hmem hr => by
      have hholes : holes 0 (u.ptrs i) = holes 0 (s.ptrs i) ++ gaps (s.content i).length (4 :: ls) := by
        rw [hw'.holes, hw.holes, append_nil, htlen, hgaps]
      rw [← State.ptrs, hholes] at hmem
      exact hq q hmem ⟨hr.1, by omega⟩
    refine ⟨v, bind_eq_some_iff.mpr ⟨t, ht, bind_eq_some_iff.mpr ⟨u, hu, ?_⟩⟩⟩
    rw [hoff]
    exact hv

theorem encodes_list (m : Machine) {α : Type} {enc : α → State n → Option (State n)} {ps : α → List Ptr}
    {b : α → Bytes} {ls : α → List ℕ} {xs : List α} (hps : ∀ x ∈ xs, ∀ p ∈ ps x, s0.Good p)
    (h : ∀ x ∈ xs, Encodes s0 i (enc x) (ps x) (b x) (ls x)) :
    Encodes s0 i (encodeList m i enc xs) (xs.flatMap ps) (Wire.le 4 xs.length ++ xs.flatMap b)
      (4 :: xs.flatMap ls) := by
  by_cases hnil : xs = []
  · refine (encodes_seq m xs h).congr (fun s => ?_) (.refl _) rfl rfl fun _ => rfl
    rw [encodeList, if_neg (not_not.mpr hnil), hnil]
    rfl
  · refine (encodes_patched m ?_ (encodes_each xs h) xs.length).congr (fun s => ?_) (.refl _) rfl rfl
      fun _ => rfl
    · intro p hp
      obtain ⟨x, hx, hpx⟩ := mem_flatMap.mp hp
      exact hps x hx p hpx
    · rw [encodeList, if_pos hnil]

section elements

variable {α β : Type}

theorem length_elem {f : α → Bytes} {x : α} : ∀ {xs : List α}, x ∈ xs → (f x).length ≤ (xs.flatMap f).length
  | y :: ys, h => by
    rw [flatMap_cons, List.length_append]
    rcases mem_cons.mp h with rfl | h
    · exact Nat.le_add_right _ _
    · exact (length_elem h).trans (Nat.le_add_left _ _)

theorem seq_map (f : α → β) (g : β → Bytes) (xs : List α) :
    Wire.le 4 (xs.map f).length ++ (xs.map f).flatMap g = Wire.le 4 xs.length ++ xs.flatMap fun x => g (f x) := by
  rw [length_map, flatMap_map]

variable {enc : α → State n → Option (State n)} {ps : α → List Ptr} {look : α → β} {b : β → Bytes} {ls : α → List ℕ}
  {xs : List α}

variable (m : Machine) (h : ∀ x, (∀ p ∈ ps x, s0.Good p) → (b (look x)).length < 2 ^ 31 →
    Encodes s0 i (enc x) (ps x) (b (look x)) (ls x)) (hp : ∀ p ∈ xs.flatMap ps, s0.Good p)
  (hsize : (Wire.le 4 (xs.map look).length ++ (xs.map look).flatMap b).length < 2 ^ 31)

include h hp hsize

theorem elems_spec :
    ∀ x ∈ xs, (∀ p ∈ ps x, s0.Good p) ∧ Encodes s0 i (enc x) (ps x) (b (look x)) (ls x) := by
  intro x hx
  have hgood : ∀ p ∈ ps x, s0.Good p := fun p hpx => hp p (mem_flatMap.mpr ⟨x, hx, hpx⟩)
  rw [seq_map, List.length_append] at hsize
  have hle : (b (look x)).length ≤ _ := length_elem (f := fun x => b (look x)) hx
  exact ⟨hgood, h x hgood (by omega)⟩

theorem encodeSeq_spec :
    Encodes s0 i (encodeSeq m i enc xs) (xs.flatMap ps) (Wire.le 4 (xs.map look).length ++ (xs.map look).flatMap b)
      (4 :: xs.flatMap ls) :=
  (encodes_seq m xs fun x hx => (elems_spec h hp hsize x hx).2).congr (fun _ => rfl) (.refl _)
    (seq_map look b xs) rfl fun _ => rfl

theorem encodeList_spec :
    Encodes s0 i (encodeList m i enc xs) (xs.flatMap ps) (Wire.le 4 (xs.map look).length ++ (xs.map look).flatMap b)
      (4 :: xs.flatMap ls) :=
  (encodes_list m (fun x hx => (elems_spec h hp hsize x hx).1) fun x hx => (elems_spec h hp hsize x hx).2).congr
    (fun _ => rfl) (.refl _) (seq_map look b xs) rfl fun _ => rfl

end elements

/-- `_encode` appends the encoding. -/
theorem encode_spec (m : Machine) (s0 : State n) (i : Fin n) : ∀ (t : Ty) (x : Value t), (∀ p ∈ ptrsOf t x, s0.Good p) →
    (bytes t (view s0.raws t x)).length < 2 ^ 31 →
    Encodes s0 i (encode m i t x) (ptrsOf t x) (bytes t (view s0.raws t x)) (parts t x)
  | .base k, x, _, _ => by
    have hx : x.1.length = k + 1 := x.2
    have hne : x.1 ≠ [] := fun h => by
      rw [h] at hx
      cases hx
    exact (encodes_raw m s0 i hne).congr (fun _ => rfl) (.refl _) rfl (by rw [hx]; rfl) fun o => by
      rw [hx]
      rfl
  | .string, x, _, hsize => by
    have hlen := length_counted x
    have hlt : (counted x).length < 2 ^ 31 := hsize
    exact encodes_string m s0 i (show x.length < 2 ^ 32 by omega)
  | .ptr, p, hp, _ => by
    have hps : ∀ q ∈ ([p] : List Ptr), s0.Good q := hp
    refine (encodes_ptrs m hps).congr (fun s => rfl) (.refl _) ?_ rfl fun _ => rfl
    exact congrArg counted (append_nil _).symm
  | .buffer, ps, hp, _ => encodes_ptrs m hp
  | .list t, _, hp, hsize => encodeList_spec m (encode_spec m s0 i t) hp hsize
  | .deque t, _, hp, hsize => encodeSeq_spec m (encode_spec m s0 i t) hp hsize
  | .set t, _, hp, hsize => encodeSeq_spec m (encode_spec m s0 i t) hp hsize
  | .vector t, _, hp, hsize => encodeSeq_spec m (encode_spec m s0 i t) hp hsize
  | .map k v, xs, hp, hsize => by
    refine encodeSeq_spec m (fun (x : Value k × Value v) hpx hlt => ?_) hp hsize
    have hsum : (bytes k (view s0.raws k x.1) ++ bytes v (view s0.raws v x.2)).length < 2 ^ 31 := hlt
    rw [List.length_append] at hsum
    have hk := encode_spec m s0 i k x.1 (fun p hp => hpx p (mem_append_left _ hp)) (by omega)
    have hv := encode_spec m s0 i v x.2 (fun p hp => hpx p (mem_append_right _ hp)) (by omega)
    exact hk.append hv

end encoders

/-! ### Decoding -/

/-- `b` is in `c` at `off`. -/
def Here (c : Bytes) (off : ℕ) (b : Bytes) : Prop := off + b.length ≤ c.length ∧ (c.drop off).take b.length = b

theorem here_append {c b b' : Bytes} {off : ℕ} (h : Here c off (b ++ b')) :
    Here c off b ∧ Here c (off + b.length) b' := by
  obtain ⟨hle, hslice⟩ := h
  rw [List.length_append] at hle hslice
  rw [take_add, drop_drop] at hslice
  have hlen : ((c.drop off).take b.length).length = b.length := by
    rw [length_take, length_drop]
    omega
  obtain ⟨h1, h2⟩ := append_inj hslice hlen
  exact ⟨⟨by omega, h1⟩, by omega, h2⟩

section decoders

variable {α β : Type} {i : Fin n} {s0 : State n}

/-- Where `b` is in list `i`, `dec` returns something that `R` holds of and leaves
`off` behind `b`, if there is no empty segment on the way; if there is one it does
not return. -/
structure Decodes (s0 : State n) (i : Fin n) (dec : State n → ℕ → Decoded n α) (R : State n → α → Prop) (b : Bytes) :
    Prop where
  some : ∀ {s off}, Later s0 s → Sound s → (s.content i).length < 2 ^ 31 → Here (s.content i) off b →
    Clear (s.nodes i) off (off + b.length) → ∃ y t, dec s off = some (y, off + b.length, t) ∧ Kept i s t ∧ R t y
  none : ∀ {s off}, Later s0 s → Sound s → (s.content i).length < 2 ^ 31 → Here (s.content i) off b →
    ¬ Clear (s.nodes i) off (off + b.length) → dec s off = none

variable {R : State n → α → Prop} {dec : State n → ℕ → Decoded n α}

variable {b : Bytes} {R' : State n → β → Prop}

theorem Decodes.map {f : α → β}
    (h : Decodes s0 i dec R b) (hR : ∀ t y, Later s0 t → R t y → R' t (f y)) :
    Decodes s0 i (fun s off => (dec s off).map fun r => (f r.1, r.2)) R' b where
  some hl hs hlt hb hc := by
    obtain ⟨y, t, hd, hkept, hy⟩ := h.some hl hs hlt hb hc
    exact ⟨f y, t, by rw [hd]; rfl, hkept, hR t y (hl.trans hkept.later) hy⟩
  none hl hs hlt hb hc := by
    rw [h.none hl hs hlt hb hc]
    rfl

/-- One thing is decoded after another. -/
theorem Decodes.bind {g : α → State n → ℕ → Decoded n β} {b' : Bytes} (h : Decodes s0 i dec R b)
    (h' : ∀ t y, Later s0 t → Sound t → R t y → Decodes t i (g y) R' b') :
    Decodes s0 i (fun s off => (dec s off).bind fun r => g r.1 r.2.2 r.2.1) R' (b ++ b') where
  some {s off} hl hs hlt hb hc := by
    obtain ⟨hb1, hb2⟩ := here_append hb
    rw [List.length_append, ← add_assoc] at hc
    obtain ⟨hc1, hc2⟩ := (clear_split (Nat.le_add_right _ _) (Nat.le_add_right _ _)).mp hc
    obtain ⟨y, t, hd, hkept, hy⟩ := h.some hl hs hlt hb1 hc1
    rw [← hkept.content hs] at hb2 hlt
    rw [← hkept.nodes] at hc2
    obtain ⟨z, u, hz, hkept', hR⟩ := (h' t y (hl.trans hkept.later) hkept.sound hy).some (.refl t) hkept.sound hlt hb2 hc2
    refine ⟨z, u, ?_, hkept.trans hkept', hR⟩
    rw [hd, bind_some, hz, List.length_append, add_assoc]
  none {s off} hl hs hlt hb hc := by
    obtain ⟨hb1, hb2⟩ := here_append hb
    rw [List.length_append, ← Nat.add_assoc, clear_split (Nat.le_add_right _ _) (Nat.le_add_right _ _)] at hc
    by_cases hc1 : Clear (s.nodes i) off (off + b.length)
    · obtain ⟨y, t, hd, hkept, hy⟩ := h.some hl hs hlt hb1 hc1
      have hc2 : ¬ Clear (t.nodes i) (off + b.length) (off + b.length + b'.length) := by
        rw [hkept.nodes]
        exact fun hc2 => hc ⟨hc1, hc2⟩
      rw [← hkept.content hs] at hb2 hlt
      rw [hd, bind_some]
      exact (h' t y (hl.trans hkept.later) hkept.sound hy).none (.refl t) hkept.sound hlt hb2 hc2
    · rw [h.none hl hs hlt hb1 hc1]
      rfl

theorem Decodes.weaken {R R' : State n → α → Prop}
    (h : Decodes s0 i dec R b) (hR : ∀ t y, R t y → R' t y) : Decodes s0 i dec R' b where
  some hl hs hlt hb hc := by
    obtain ⟨y, t, hd, hkept, hy⟩ := h.some hl hs hlt hb hc
    exact ⟨y, t, hd, hkept, hR t y hy⟩
  none := h.none

variable {s : State n}

theorem offAdd_eq {off : ℕ} (hlt : (s.content i).length < 2 ^ 31)
    (hb : Here (s.content i) off b) : offAdd off b.length = off + b.length := by
  have := hb.1
  exact u32_eq (by omega)

theorem decodes_raw (s0 : State n) (i : Fin n) (b : Bytes) :
    Decodes s0 i (decodeRaw i b.length) (fun _ y => y = b) b where
  some {s off} _ hs hlt hb hc := by
    obtain ⟨t, ht, hkept⟩ := (copy_spec hs hb.1).1 hc
    refine ⟨b, t, ?_, hkept, rfl⟩
    rw [decodeRaw, ht, hb.2, map_some, offAdd_eq hlt hb]
  none {s off} _ hs hlt hb hc := by
    rw [decodeRaw, (copy_spec hs hb.1).2 hc]
    rfl

theorem decodes_32 (s0 : State n) (i : Fin n) {k : ℕ} (hk : k < 2 ^ 32) :
    Decodes s0 i (decode32 i) (fun _ y => y = k) (Wire.le 4 k) := by
  have hraw := decodes_raw s0 i (Wire.le 4 k)
  refine hraw.map fun t y _ hy => ?_
  rw [hy, Wire.unLe_le]
  exact Nat.mod_eq_of_lt hk

theorem decodes_string (s0 : State n) (i : Fin n) (hsize : b.length < 2 ^ 32) :
    Decodes s0 i (decodeString i) (fun _ y => y = b) (counted b) := by
  refine (decodes_32 s0 i hsize).bind (g := fun k s off => (copyString s i off k).map fun q => (q.2, offAdd off k, q.1))
    fun t k _ _ hk => ?_
  subst hk
  refine ⟨fun {s off} _ hs hlt hb hc => ?_, fun {s off} _ hs hlt hb hc => ?_⟩
  · obtain ⟨t, ht, hkept⟩ := (copyString_spec hs hb.1).1 hc
    refine ⟨b, t, ?_, hkept, rfl⟩
    rw [ht, hb.2, map_some, offAdd_eq hlt hb]
  · rw [(copyString_spec hs hb.1).2 hc]
    rfl

theorem decodes_segments (s0 : State n) (i : Fin n) (hsize : b.length < 2 ^ 32) :
    Decodes s0 i (decodeSegments i) (fun t xs => t.GoodNodes xs ∧ bytesOf t.raws xs = b) (counted b) := by
  refine (decodes_32 s0 i hsize).bind (g := fun k s off => (copySegments i s off k).map fun q => (q.2, offAdd off k, q.1))
    fun t k _ _ hk => ?_
  subst hk
  refine ⟨fun {s off} _ hs hlt hb hc => ?_, fun {s off} _ hs hlt hb hc => ?_⟩
  · obtain ⟨t, xs, ht, hkept, hgood, hbytes⟩ := (copySegments_spec hs hb.1).1 hc
    refine ⟨xs, t, ?_, hkept, hgood, hbytes.trans hb.2⟩
    rw [ht, map_some, offAdd_eq hlt hb]
  · rw [(copySegments_spec hs hb.1).2 hc]
    rfl

theorem Decodes.later {s1 : State n}
    (h : Decodes s0 i dec R b) (hl : Later s0 s1) : Decodes s1 i dec R b where
  some hl' := h.some (hl.trans hl')
  none hl' := h.none (hl.trans hl')

theorem kept_addRaw (i : Fin n) (hs : Sound s) (hb : b.length < 2 ^ 32) :
    Kept i s (addRaw s b) where
  sound := ⟨hs.wf.addRaw hb, hs.small, hs.tracked.congr (fun _ => rfl) (fun _ => rfl) le_rfl⟩
  nodes := rfl
  later := by
    have hget : ∀ (r : ℕ) (e : Bytes), s.raws[r]? = some e → (addRaw s b).raws[r]? = some e := by
      intro r e he
      rw [← he]
      exact getElem?_append_left (List.getElem?_eq_some_iff.mp he).1
    refine ⟨fun p hp => hp.addRaw b, ?_, ?_⟩
    · rintro c ⟨e, he, hlt, hu⟩
      exact ⟨e, hget _ _ he, hlt, hu⟩
    · rintro c ⟨e, he, -, -⟩
      rw [read, read, hget _ _ he, he]

theorem onePtr_spec (hs : Sound s) {xs : List Node} (hx : s.GoodNodes xs) (hsmall : total xs < 2 ^ 32) :
    Kept i s (onePtr s xs).1 ∧ (onePtr s xs).1.Good (onePtr s xs).2 ∧
      (onePtr s xs).2.bytes (onePtr s xs).1.raws = bytesOf s.raws xs := by
  have hmany : Kept i s (addRaw s (bytesOf s.raws xs)) ∧
      (addRaw s (bytesOf s.raws xs)).Good ⟨some s.raws.length, 0, (bytesOf s.raws xs).length⟩ ∧
      Ptr.bytes (addRaw s (bytesOf s.raws xs)).raws ⟨some s.raws.length, 0, (bytesOf s.raws xs).length⟩ =
        bytesOf s.raws xs := by
    refine ⟨kept_addRaw i hs ?_, good_new hs.wf (by rw [zero_add]), ?_⟩
    · rw [length_bytesOf xs hx]
      exact hsmall
    · rw [addRaw, bytes_new, drop_zero, take_length]
  rcases xs with _ | ⟨x, _ | ⟨y, zs⟩⟩
  · exact hmany
  · exact ⟨.refl hs, hx x mem_cons_self, by rw [bytesOf_cons, bytesOf_nil, append_nil]; rfl⟩
  · exact hmany

theorem decodes_ptr (s0 : State n) (i : Fin n) (hsize : b.length < 2 ^ 32) :
    Decodes s0 i (decodePtr i) (fun t p => t.Good p ∧ p.bytes t.raws = b) (counted b) where
  some {s off} hl hs hlt hb hc := by
    obtain ⟨xs, t, hd, hkept, hgood, rfl⟩ := (decodes_segments s0 i hsize).some hl hs hlt hb hc
    rw [length_bytesOf xs hgood] at hsize
    obtain ⟨hkept', hp, hbytes⟩ := onePtr_spec (i := i) hkept.sound hgood hsize
    refine ⟨(onePtr t xs).2, (onePtr t xs).1, ?_, hkept.trans hkept', hp, hbytes⟩
    rw [decodePtr, hd]
    rfl
  none hl hs hlt hb hc := by
    rw [decodePtr, (decodes_segments s0 i hsize).none hl hs hlt hb hc]
    rfl

theorem decodes_buffer (s0 : State n) (i : Fin n) (hsize : b.length < 2 ^ 32) :
    Decodes s0 i (decodeBuffer i) (fun t ps => (∀ p ∈ ps, t.Good p) ∧ ps.flatMap (·.bytes t.raws) = b) (counted b) := by
  refine (decodes_segments s0 i hsize).map ?_
  rintro t xs - ⟨hgood, rfl⟩
  refine ⟨fun p hp => ?_, by rw [flatMap_map]; rfl⟩
  obtain ⟨x, hx, rfl⟩ := mem_map.mp hp
  exact hgood x hx

/-! ### Containers again -/

variable {ins : List α → α → List α} {R : State n → α → β → Prop}

theorem decodes_each
    {b : β → Bytes} (hR : ∀ s t y v, Later s t → R s y v → R t y v) : ∀ (vs ws : List β) {acc : List α} {s0 : State n},
    (∀ v ∈ vs, Decodes s0 i dec (fun t y => R t y v) (b v)) →
    (∀ s ys y us v, us ++ [v] <+: ws ++ vs → List.Forall₂ (R s) ys us → R s y v → ins ys y = ys ++ [y]) →
    List.Forall₂ (R s0) acc ws →
    Decodes s0 i (decodeEach dec ins vs.length acc) (fun t ys => List.Forall₂ (R t) ys (ws ++ vs)) (vs.flatMap b)
  | [], ws, acc, s0, _, _, hacc => by
    refine ⟨fun {s off} hl hs _ _ _ => ⟨acc, s, rfl, .refl hs, ?_⟩, fun {s off} _ _ _ _ hc => ?_⟩
    · rw [append_nil]
      exact hacc.imp fun _ _ => hR _ _ _ _ hl
    · exact absurd (clear_empty _ _) hc
  | v :: vs, ws, acc, s0, hdec, hins, hacc => by
    refine (hdec v mem_cons_self).bind (g := fun y s off => decodeEach dec ins vs.length (ins acc y) s off)
      fun t y hl _ hy => ?_
    have hacc' : List.Forall₂ (R t) acc ws := hacc.imp fun _ _ => hR _ _ _ _ hl
    have hlast : ins acc y = acc ++ [y] := by
      refine hins t acc y ws v ⟨vs, ?_⟩ hacc' hy
      rw [append_assoc]
      rfl
    rw [show ws ++ v :: vs = ws ++ [v] ++ vs by rw [append_assoc]; rfl] at hins ⊢
    rw [hlast]
    exact decodes_each hR vs (ws ++ [v]) (fun u hu => (hdec u (mem_cons_of_mem v hu)).later hl) hins
      (rel_append hacc' (.cons hy .nil))

theorem decodes_seq
    {b : β → Bytes} (hR : ∀ s t y v, Later s t → R s y v → R t y v) {vs : List β} (hsize : vs.length < 2 ^ 32)
    (hdec : ∀ v ∈ vs, Decodes s0 i dec (fun t y => R t y v) (b v))
    (hins : ∀ s ys y us v, us ++ [v] <+: vs → List.Forall₂ (R s) ys us → R s y v → ins ys y = ys ++ [y]) :
    Decodes s0 i (decodeSeq i dec ins) (fun t ys => List.Forall₂ (R t) ys vs) (Wire.le 4 vs.length ++ vs.flatMap b) := by
  refine (decodes_32 s0 i hsize).bind (g := fun k s off => decodeEach dec ins k [] s off) fun t k hl _ hk => ?_
  subst hk
  exact decodes_each hR vs [] (fun v hv => (hdec v hv).later hl) hins .nil

end decoders

/-! ### Keys -/

section keys

variable {P B P' B' P'' B'' : Type}

theorem map_comp {α β γ : Type} {f : α → β} {g : β → γ} {k : α → γ} (h : ∀ x, g (f x) = k x) (xs : List α) :
    (xs.map f).map g = xs.map k := by
  rw [List.map_map]
  exact map_congr_left fun x _ => h x

theorem Val.map_map (f : P → P') (g : B → B') (f' : P' → P'') (g' : B' → B'') : ∀ (t : Ty) (x : Val P B t),
    Val.map f' g' t (Val.map f g t x) = Val.map (fun p => f' (f p)) (fun b => g' (g b)) t x
  | .base _, _ => rfl
  | .string, _ => rfl
  | .ptr, _ => rfl
  | .buffer, _ => rfl
  | .list t, xs => map_comp (Val.map_map f g f' g' t) xs
  | .deque t, xs => map_comp (Val.map_map f g f' g' t) xs
  | .set t, xs => map_comp (Val.map_map f g f' g' t) xs
  | .vector t, xs => map_comp (Val.map_map f g f' g' t) xs
  | .map k v, xs =>
    map_comp (fun x => Prod.ext (Val.map_map f g f' g' k x.1) (Val.map_map f g f' g' v x.2)) xs

theorem key_view (raws : Raws) (t : Ty) (x : Value t) : key t (view raws t x) = key t x := Val.map_map _ _ _ _ t x

/-- The order in which `set` and `map` have their elements. -/
def Ordered (less : Less) : (t : Ty) → Val P B t → Prop
  | .base _, _ => True
  | .string, _ => True
  | .ptr, _ => True
  | .buffer, _ => True
  | .list t, xs => List.Forall (Ordered less t) xs
  | .deque t, xs => List.Forall (Ordered less t) xs
  | .set t, xs => List.Forall (Ordered less t) xs ∧ List.Pairwise (fun a b => less.lt t (key t a) (key t b)) xs
  | .vector t, xs => List.Forall (Ordered less t) xs
  | .map k v, xs => List.Forall (fun p => Ordered less k p.1 ∧ Ordered less v p.2) xs ∧
    List.Pairwise (fun a b => less.lt k (key k a.1) (key k b.1)) xs

theorem forall_map {α β : Type} {f : α → β} {p : α → Prop} {q : β → Prop} (h : ∀ x, p x → q (f x)) {xs : List α}
    (hx : List.Forall p xs) : List.Forall q (xs.map f) := by
  rw [forall_iff_forall_mem] at hx ⊢
  intro y hy
  obtain ⟨x, hmem, rfl⟩ := mem_map.mp hy
  exact h x (hx x hmem)

theorem ordered_view {less : Less} (raws : Raws) : ∀ (t : Ty) (x : Value t), Ordered less t x →
    Ordered less t (view raws t x)
  | .base _, _, h => h
  | .string, _, h => h
  | .ptr, _, h => h
  | .buffer, _, h => h
  | .list t, _, h => forall_map (ordered_view raws t) h
  | .deque t, _, h => forall_map (ordered_view raws t) h
  | .set t, _, h => by
    refine ⟨forall_map (ordered_view raws t) h.1, pairwise_map.mpr (h.2.imp fun {a b} hab => ?_)⟩
    rw [← key_view raws t a, ← key_view raws t b] at hab
    exact hab
  | .vector t, _, h => forall_map (ordered_view raws t) h
  | .map k v, _, h => by
    refine ⟨forall_map (fun x hx => ⟨ordered_view raws k x.1 hx.1, ordered_view raws v x.2 hx.2⟩) h.1,
      pairwise_map.mpr (h.2.imp fun {a b} hab => ?_)⟩
    rw [← key_view raws k a.1, ← key_view raws k b.1] at hab
    exact hab

end keys

section insertion

variable {α β : Type} {lt : α → α → Bool}

theorem insertKey_last (hasymm : ∀ a b, lt a b → ¬ lt b a) {x : α} : ∀ {ys : List α}, (∀ y ∈ ys, lt y x) →
    insertKey lt x ys = ys ++ [x]
  | [], _ => rfl
  | y :: ys, h => by
    have hy := h y mem_cons_self
    rw [insertKey, if_neg (hasymm y x hy), if_pos hy, insertKey_last hasymm fun z hz => h z (mem_cons_of_mem y hz)]
    rfl

theorem insertPair_last (hasymm : ∀ a b, lt a b → ¬ lt b a) {x : α × β} : ∀ {ys : List (α × β)},
    (∀ y ∈ ys, lt y.1 x.1) → insertPair lt x ys = ys ++ [x]
  | [], _ => rfl
  | y :: ys, h => by
    have hy := h y mem_cons_self
    rw [insertPair, if_neg (hasymm y.1 x.1 hy), if_pos hy,
      insertPair_last hasymm fun z hz => h z (mem_cons_of_mem y hz)]
    rfl

end insertion

/-! ### Decoded values -/

section shows

variable {α β : Type}

/-- A decoded value points at good memory, and `v` is what is seen of it. -/
def Shows (ps : α → List Ptr) (look : Raws → α → β) (s : State n) (y : α) (v : β) : Prop :=
  (∀ p ∈ ps y, s.Good p) ∧ look s.raws y = v

/-- What is seen of a value does not change while its memory is good. -/
structure Stays (n : ℕ) (ps : α → List Ptr) (look : Raws → α → β) : Prop where
  same : ∀ {s s' : State n} {y : α}, Later s s' → (∀ p ∈ ps y, s.Good p) → look s'.raws y = look s.raws y

variable {ps : α → List Ptr} {look : Raws → α → β}

theorem Shows.later {s s' : State n} {y : α} {v : β} (hl : Later s s') (hst : Stays n ps look) (h : Shows ps look s y v) :
    Shows ps look s' y v :=
  ⟨fun p hp => hl.good p (h.1 p hp), (hst.same hl h.1).trans h.2⟩

theorem Stays.elems (h : Stays n ps look) : Stays n (flatMap ps) fun raws => map (look raws) :=
  ⟨fun hl hp => map_congr_left fun y hy => h.same hl fun p hpy => hp p (mem_flatMap.mpr ⟨y, hy, hpy⟩)⟩

theorem Stays.pair {α' β' : Type} {ps' : α' → List Ptr} {look' : Raws → α' → β'} (h : Stays n ps look)
    (h' : Stays n ps' look') :
    Stays n (fun y : α × α' => ps y.1 ++ ps' y.2) fun raws y => (look raws y.1, look' raws y.2) :=
  ⟨fun hl hp => Prod.ext (h.same hl fun p hpy => hp p (mem_append_left _ hpy))
    (h'.same hl fun p hpy => hp p (mem_append_right _ hpy))⟩

theorem view_stays (n : ℕ) : ∀ t : Ty, Stays n (ptrsOf t) (view · t)
  | .base _ => ⟨fun _ _ => rfl⟩
  | .string => ⟨fun _ _ => rfl⟩
  | .ptr => ⟨fun hl h => hl.bytes_eq (h _ mem_cons_self)⟩
  | .buffer => ⟨fun hl h => hl.flatMap_bytes h⟩
  | .list t | .deque t | .set t | .vector t => (view_stays n t).elems
  | .map k v => ((view_stays n k).pair (view_stays n v)).elems

theorem shows_elems {s : State n} : ∀ {ys : List α} {vs : List β}, List.Forall₂ (Shows ps look s) ys vs →
    Shows (flatMap ps) (fun raws => map (look raws)) s ys vs
  | _, _, .nil => ⟨nofun, rfl⟩
  | _, _, .cons hy h => by
    obtain ⟨hgood, hlook⟩ := shows_elems h
    refine ⟨fun p hp => ?_, congrArg₂ cons hy.2 hlook⟩
    rw [flatMap_cons] at hp
    exact (mem_append.mp hp).elim (hy.1 p) (hgood p)

end shows

theorem lt_last {α : Type} {r : α → α → Prop} {us vs : List α} {v : α} (h : vs.Pairwise r) (hp : us ++ [v] <+: vs) :
    ∀ u ∈ us, r u v := by
  have hpair := h.sublist hp.sublist
  rw [pairwise_append] at hpair
  exact fun u hu => hpair.2.2 u hu v (mem_singleton.mpr rfl)

theorem forall₂_left {α β : Type} {R : α → β → Prop} {q : α → Prop} {r : β → Prop} (h : ∀ a b, R a b → r b → q a) :
    ∀ {as : List α} {bs : List β}, List.Forall₂ R as bs → (∀ b ∈ bs, r b) → ∀ a ∈ as, q a
  | _, _, .nil, _, a, ha => nomatch ha
  | _, _, .cons hab hrest, hr, a, ha => by
    rcases mem_cons.mp ha with rfl | ha
    · exact h a _ hab (hr _ mem_cons_self)
    · exact forall₂_left h hrest (fun b hb => hr b (mem_cons_of_mem _ hb)) a ha

section decode

variable {i : Fin n} {s0 : State n} {less : Less}

section elems

variable {α β : Type} {ps : α → List Ptr} {look : Raws → α → β} {b : β → Bytes}

variable {dec : State n → ℕ → Decoded n α}

variable {vs : List β}

theorem decodes_elems {ins : List α → α → List α}
    (hst : Stays n ps look) (hpos : ∀ v, 0 < (b v).length) (hsize : (Wire.le 4 vs.length ++ vs.flatMap b).length < 2 ^ 31)
    (hdec : ∀ v ∈ vs, (b v).length < 2 ^ 31 → Decodes s0 i dec (fun s y => Shows ps look s y v) (b v))
    (hins : ∀ (s : State n) ys y us v, us ++ [v] <+: vs → List.Forall₂ (Shows ps look s) ys us → Shows ps look s y v →
      ins ys y = ys ++ [y]) :
    Decodes s0 i (decodeSeq i dec ins) (fun s ys => Shows (flatMap ps) (fun raws => map (look raws)) s ys vs)
      (Wire.le 4 vs.length ++ vs.flatMap b) := by
  have hcount := length_le_flatMap hpos vs
  rw [List.length_append] at hsize
  refine (decodes_seq (fun _ _ _ _ hl h => h.later hl hst) (by omega) (fun v hv => hdec v hv ?_) hins).weaken ?_
  · have hle := length_elem (f := b) hv
    omega
  · exact fun s ys h => shows_elems h

theorem decodes_list (hst : Stays n ps look)
    (hpos : ∀ v, 0 < (b v).length) (hsize : (Wire.le 4 vs.length ++ vs.flatMap b).length < 2 ^ 31)
    (hdec : ∀ v ∈ vs, (b v).length < 2 ^ 31 → Decodes s0 i dec (fun s y => Shows ps look s y v) (b v)) :
    Decodes s0 i (decodeSeq i dec pushBack)
      (fun s ys => Shows (flatMap ps) (fun raws => map (look raws)) s ys vs)
      (Wire.le 4 vs.length ++ vs.flatMap b) :=
  decodes_elems hst hpos hsize hdec fun _ _ _ _ _ _ _ _ => rfl

end elems

theorem length_lt_of_counted {b : Bytes} (h : (counted b).length < 2 ^ 31) : b.length < 2 ^ 32 := by
  rw [length_counted] at h
  omega

/-- `_decode` of an encoding. -/
theorem decode_spec (less : Less) (i : Fin n) : ∀ (t : Ty) (v : View t), Ordered less t v → (bytes t v).length < 2 ^ 31 →
    ∀ s0 : State n, Decodes s0 i (decode i less t) (fun s y => Shows (ptrsOf t) (view · t) s y v) (bytes t v)
  | .base k, v, _, hsize, s0 => by
    have hv : v.1.length = k + 1 := v.2
    refine ⟨fun {s off} hl hs hlt hb hc => ?_, fun {s off} hl hs hlt hb hc => ?_⟩
    · obtain ⟨y, t, hd, hkept, rfl⟩ := (decodes_raw s0 i v.1).some hl hs hlt hb hc
      rw [hv] at hd
      refine ⟨v, t, ?_, hkept, nofun, rfl⟩
      have hlen : (bytes (.base k) v).length = k + 1 := hv
      rw [decode, hd, bind_some, dif_pos hv, hlen]
      rfl
    · have hd := (decodes_raw s0 i v.1).none hl hs hlt hb hc
      rw [hv] at hd
      rw [decode, hd, bind_none]
  | .string, v, _, hsize, s0 =>
    (decodes_string s0 i (length_lt_of_counted hsize)).weaken fun _ _ hy => ⟨nofun, hy⟩
  | .ptr, v, _, hsize, s0 =>
    (decodes_ptr s0 i (length_lt_of_counted hsize)).weaken fun _ _ hy =>
      ⟨fun p hp => (mem_singleton.mp hp) ▸ hy.1, hy.2⟩
  | .buffer, v, _, hsize, s0 => (decodes_buffer s0 i (length_lt_of_counted hsize)).weaken fun _ _ hy => hy
  | .list t, vs, hord, hsize, s0 =>
    decodes_list (view_stays n t) (bytes_pos t) hsize fun v hv hlt =>
      decode_spec less i t v (forall_iff_forall_mem.mp hord v hv) hlt s0
  | .deque t, vs, hord, hsize, s0 =>
    decodes_list (view_stays n t) (bytes_pos t) hsize fun v hv hlt =>
      decode_spec less i t v (forall_iff_forall_mem.mp hord v hv) hlt s0
  | .set t, vs, hord, hsize, s0 => by
    refine decodes_elems (view_stays n t) (bytes_pos t) hsize (fun v hv hlt => ?_) ?_
    · exact decode_spec less i t v (forall_iff_forall_mem.mp hord.1 v hv) hlt s0
    · intro s ys y us v hp hys hy
      refine insertKey_last (fun a b => less.asymm t _ _) ?_
      refine forall₂_left (fun a b hab hb => ?_) hys (lt_last hord.2 hp)
      rw [← key_view s.raws t a, ← key_view s.raws t y]
      rwa [← hab.2, ← hy.2] at hb
  | .vector t, vs, hord, hsize, s0 =>
    decodes_list (view_stays n t) (bytes_pos t) hsize fun v hv hlt =>
      decode_spec less i t v (forall_iff_forall_mem.mp hord v hv) hlt s0
  | .map k w, vs, hord, hsize, s0 => by
    refine decodes_elems ((view_stays n k).pair (view_stays n w)) (fun v => ?_) hsize (fun v hv hlt => ?_) ?_
    · have := bytes_pos k v.1
      rw [List.length_append]
      omega
    · rw [List.length_append] at hlt
      have hboth := forall_iff_forall_mem.mp hord.1 v hv
      refine (decode_spec less i k v.1 hboth.1 (by omega) s0).bind
        (g := fun y s off => (decode i less w s off).map fun q => ((y, q.1), q.2)) fun t y hl _ hy => ?_
      refine (decode_spec less i w v.2 hboth.2 (by omega) t).map fun u z hl' hz => ?_
      have hy' := hy.later hl' (view_stays n k)
      refine ⟨fun p hp => ?_, Prod.ext hy'.2 hz.2⟩
      exact (mem_append.mp hp).elim (hy'.1 p) (hz.1 p)
    · intro s ys y us v hp hys hy
      refine insertPair_last (fun a b => less.asymm k _ _) ?_
      refine forall₂_left (fun a b hab hb => ?_) hys (lt_last hord.2 hp)
      rw [← key_view s.raws k a.1, ← key_view s.raws k y.1]
      rwa [← hab.2, ← hy.2] at hb

end decode

/-! ### The round trip -/

/-- Empty parts are followed by empty parts only. -/
def EmptyLast (ls : List ℕ) : Prop := ∀ q ∈ gaps 0 ls, q = ls.sum

instance (ls : List ℕ) : Decidable (EmptyLast ls) := inferInstanceAs (Decidable (∀ q ∈ gaps 0 ls, q = ls.sum))

section round

variable {i : Fin n} {s : State n} {t : Ty} {x : Value t}

variable {b : Bytes}

/-- `append` of any range. -/
theorem append_bytes (m : Machine) (hs : Sound s) (hfirm : Firm s i)
    (hroom : (s.content i).length + b.length < 2 ^ 31) :
    ∃ u new, append m s i b = some u ∧ Wrote i s u new [] ∧ Firm u i ∧ new.map (read u.raws) = b := by
  by_cases hb : b = []
  · subst hb
    exact ⟨s, [], rfl, .refl hs, hfirm, rfl⟩
  · obtain ⟨u, new, hu, hw, hfu, hfresh, -⟩ := raw_wrote m hs hfirm hb hroom
    exact ⟨u, new, hu, hw, hfu, hfresh.read⟩

/-- Behind `pre`, `x`, which is seen as `d`, is encoded; `suffix` is appended, and at
the offset behind `pre` a value that is seen as `d` is decoded. -/
structure RoundTrip (m : Machine) (less : Less) (i : Fin n) (t : Ty) (x : Value t) (d : View t) (pre suffix : Bytes)
    (s u v w : State n) (y : Value t) : Prop where
  encoded : encode m i t x s = some u
  suffixed : append m u i suffix = some v
  content : v.content i = pre ++ bytes t d ++ suffix
  decoded : decode i less t v pre.length = some (y, pre.length + (bytes t d).length, w)
  same : view w.raws t y = d

variable {m : Machine} {less : Less} {suffix : Bytes}

theorem encode_append (hs : Sound s) (hfirm : Firm s i) (hx : ∀ p ∈ ptrsOf t x, s.Good p)
    (hsize : (s.content i).length + (bytes t (view s.raws t x)).length + suffix.length < 2 ^ 31) {u : State n}
    (hu : encode m i t x s = some u) :
    ∃ v, append m u i suffix = some v ∧ Later s v ∧ Sound v ∧
      v.content i = s.content i ++ bytes t (view s.raws t x) ++ suffix ∧
      holes 0 (v.ptrs i) = holes 0 (s.ptrs i) ++ gaps (s.content i).length (parts t x) := by
  obtain ⟨new, hw, hfu, hb, -⟩ := (encode_spec m s i t x hx (by omega)).wrote (.refl s) hs hfirm (by omega) hu
  have hulen : (u.content i).length = (s.content i).length + (bytes t (view s.raws t x)).length := by
    rw [hw.length_content hs, ← hb, length_map]
  obtain ⟨v, new', hv, hw', -, hb'⟩ := append_bytes m hw.sound hfu (b := suffix) (by omega)
  refine ⟨v, hv, hw.later.trans hw'.later, hw'.sound, ?_, ?_⟩
  · rw [hw'.content hw.sound, hb', hw.content hs, hb]
  · rw [hw'.holes, hw.holes, append_nil]

theorem holes_last (hs : Sound s) (hend : (s.content i).length ∉ holes 0 (s.ptrs i)) {ls : List ℕ}
    (hsum : ls.sum = b.length) :
    (∀ q ∈ holes 0 (s.ptrs i) ++ gaps (s.content i).length ls,
      ¬ ((s.content i).length ≤ q ∧ q < (s.content i).length + b.length)) ↔ EmptyLast ls := by
  have hgaps := gaps_add (s.content i).length 0 ls
  rw [add_zero] at hgaps
  rw [hgaps]
  constructor
  · intro h q hq
    have hle := (gaps_le hq).2
    have hnot := h _ (mem_append_right _ (mem_map_of_mem hq))
    omega
  · rintro h q hq ⟨hge, hlt⟩
    rcases mem_append.mp hq with hq | hq
    · have hle := (holes_ge hq).2
      rw [sum_ptrs, ← hs.wf.length_content i] at hle
      have heq : q = (s.content i).length := by omega
      exact hend (heq ▸ hq)
    · obtain ⟨r, hr, rfl⟩ := mem_map.mp hq
      have := h r hr
      omega

/-- The round trip in a list that does not end with an empty segment. -/
theorem roundTrip_at (m : Machine) (less : Less) (suffix : Bytes) (hs : Sound s) (hfirm : Firm s i)
    (hend : (s.content i).length ∉ holes 0 (s.ptrs i)) (hx : ∀ p ∈ ptrsOf t x, s.Good p) (hord : Ordered less t x)
    (hsize : (s.content i).length + (bytes t (view s.raws t x)).length + suffix.length < 2 ^ 31) :
    (∃ u v w y, RoundTrip m less i t x (view s.raws t x) (s.content i) suffix s u v w y) ↔ EmptyLast (parts t x) := by
  have henc := encode_spec m s i t x hx (by omega)
  have hdec := decode_spec less i t (view s.raws t x) (ordered_view s.raws t x hord) (by omega) s
  have hlast := holes_last hs hend henc.sum
  have hhere : ∀ {v : State n}, v.content i = s.content i ++ bytes t (view s.raws t x) ++ suffix →
      (v.content i).length < 2 ^ 31 ∧ Here (v.content i) (s.content i).length (bytes t (view s.raws t x)) := by
    intro v hv
    rw [hv, List.length_append, List.length_append]
    refine ⟨by omega, ?_, ?_⟩
    · rw [List.length_append, List.length_append]
      omega
    · rw [append_assoc, drop_left, take_left]
  constructor
  · rintro ⟨u, v, w, y, h⟩
    obtain ⟨v', hv', hl, hsv, hcontent, hholes⟩ := encode_append hs hfirm hx hsize h.encoded
    have heq : v = v' := some.inj (h.suffixed.symm.trans hv')
    subst heq
    obtain ⟨hlt, hb⟩ := hhere h.content
    by_cases hc : Clear (v.nodes i) (s.content i).length ((s.content i).length + (bytes t (view s.raws t x)).length)
    · rw [Clear, ← State.ptrs, hholes] at hc
      exact hlast.mp hc
    · have hnone := h.decoded
      rw [hdec.none hl hsv hlt hb hc] at hnone
      cases hnone
  · intro hempty
    have hclear := hlast.mpr hempty
    obtain ⟨u, hu⟩ := henc.some (.refl s) hs hfirm (by omega) hclear
    obtain ⟨v, hv, hl, hsv, hcontent, hholes⟩ := encode_append hs hfirm hx hsize hu
    obtain ⟨hlt, hb⟩ := hhere hcontent
    rw [← hholes] at hclear
    obtain ⟨y, w, hy, hkept, hshow⟩ := hdec.some hl hsv hlt hb hclear
    exact ⟨u, v, w, y, hu, hv, hcontent, hy, hshow.2⟩

/-- **The round trip.** A value is decoded as it was encoded, whatever is before and
behind it, exactly if no empty segment of it is followed by a byte of it: the copies
of the decoder, and that of a list's count, never get on at an empty segment. -/
theorem round_trip (m : Machine) (less : Less) {s0 : State n} (h : Sound s0) {i : Fin n} (hempty : s0.nodes i = [])
    (pre suffix : Bytes) (t : Ty) (x : Value t) (hx : ∀ p ∈ ptrsOf t x, s0.Good p) (hord : Ordered less t x)
    (hsize : pre.length + (bytes t (view s0.raws t x)).length + suffix.length < 2 ^ 31) :
    (∃ s u v w y, append m s0 i pre = some s ∧ RoundTrip m less i t x (view s0.raws t x) pre suffix s u v w y) ↔
      EmptyLast (parts t x) := by
  have hnil : s0.content i = [] := by
    rw [content_eq, hempty]
    rfl
  have hfirm : Firm s0 i := fun y hy => by
    rw [hempty] at hy
    cases hy
  obtain ⟨s, new, hs, hw, hfs, hb⟩ := append_bytes m h hfirm (b := pre) (by rw [hnil]; show 0 + _ < _; omega)
  have hcontent : s.content i = pre := by rw [hw.content h, hnil, hb]; rfl
  have hholes : holes 0 (s.ptrs i) = [] := by
    rw [hw.holes, State.ptrs, hempty]
    rfl
  have hview : view s.raws t x = view s0.raws t x := (view_stays n t).same hw.later hx
  have hat := roundTrip_at (i := i) (x := x) m less suffix hw.sound hfs (by rw [hholes]; exact not_mem_nil)
    (fun p hp => hw.later.good p (hx p hp)) hord (by rw [hcontent, hview]; omega)
  rw [hcontent, hview] at hat
  rw [← hat]
  constructor
  · rintro ⟨s', u, v, w, y, hs', h'⟩
    have heq : s = s' := some.inj (hs.symm.trans hs')
    subst heq
    exact ⟨u, v, w, y, h'⟩
  · rintro ⟨u, v, w, y, h'⟩
    exact ⟨s, u, v, w, y, hs, h'⟩

end round

/-- Strings are compared byte by byte; no other keys are needed here. -/
def byBytes : Less where
  lt
    | .string => fun (a b : Bytes) => decide (a < b)
    | _ => fun _ _ => false
  asymm
    | .string => fun (a b : Bytes) h => by
      simp only [decide_eq_true_eq] at h ⊢
      exact List.lt_asymm h
    | .base _ => fun _ _ h => nomatch h
    | .ptr => fun _ _ h => nomatch h
    | .buffer => fun _ _ h => nomatch h
    | .list _ => fun _ _ h => nomatch h
    | .deque _ => fun _ _ h => nomatch h
    | .set _ => fun _ _ h => nomatch h
    | .vector _ => fun _ _ h => nomatch h
    | .map _ _ => fun _ _ h => nomatch h

/-- A pool with a raw buffer of three bytes. -/
def oneRaw : State 1 := addRaw (State.init 1) [1, 2, 3]

theorem oneRaw_sound : Sound oneRaw := (kept_addRaw 0 (init_sound 1) (by decide)).sound

theorem oneRaw_good {off len : ℕ} (h : off + len ≤ 3) : oneRaw.Good ⟨some 0, off, len⟩ := good_new (init_wf 1) h

/-- An empty segment at the very end does not matter. -/
theorem round_trip_empty_last : ∃ s u v w y, append page4k oneRaw 0 [9] = some s ∧
    RoundTrip page4k byBytes 0 (.map .string (.list .ptr))
      [([97], [⟨some 0, 0, 3⟩, ⟨some 0, 1, 1⟩]), ([97, 98], [⟨some 0, 2, 0⟩])]
      (view oneRaw.raws (.map .string (.list .ptr))
        [([97], [⟨some 0, 0, 3⟩, ⟨some 0, 1, 1⟩]), ([97, 98], [⟨some 0, 2, 0⟩])]) [9] [8] s u v w y := by
  refine (round_trip page4k byBytes oneRaw_sound rfl [9] [8] _ _ ?_ ?_ (by decide)).mpr (by decide)
  · intro p hp
    have hmem : p ∈ ([⟨some 0, 0, 3⟩, ⟨some 0, 1, 1⟩, ⟨some 0, 2, 0⟩] : List Ptr) := hp
    simp only [mem_cons, not_mem_nil, or_false] at hmem
    rcases hmem with rfl | rfl | rfl <;> exact oneRaw_good (by decide)
  · exact ⟨by simp [Ordered, List.Forall], pairwise_pair.mpr (by decide)⟩

/-- Of two empty pointers the second is never decoded: the copy of its length gets to
the first one's segment and stays there. -/
theorem round_trip_stuck : ∃ s u : State 1, Sound s ∧ s.content 0 = [] ∧ s.Good ⟨some 0, 2, 0⟩ ∧
    encode page4k 0 (.vector .ptr) [⟨some 0, 2, 0⟩, ⟨some 0, 2, 0⟩] s = some u ∧
    u.content 0 = [2, 0, 0, 0, 0, 0, 0, 0, 0, 0, 0, 0] ∧ decode 0 byBytes (.vector .ptr) u 0 = none := by
  obtain ⟨u, hu, heq⟩ := map_eq_some_iff.mp (show
    ((encode page4k 0 (.vector .ptr) [⟨some 0, 2, 0⟩, ⟨some 0, 2, 0⟩] oneRaw).map fun u =>
        (u.content 0, (decode 0 byBytes (.vector .ptr) u 0).isNone)) =
      some ([2, 0, 0, 0, 0, 0, 0, 0, 0, 0, 0, 0], true) by decide +kernel)
  simp only [Prod.mk.injEq, isNone_iff_eq_none] at heq
  exact ⟨oneRaw, u, oneRaw_sound, rfl, oneRaw_good (by decide), hu, heq.1, heq.2⟩

end Buffer
end Ceph
