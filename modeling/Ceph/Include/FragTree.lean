/-
# A fragment tree partitions the namespace

Splits and merges only ever leave splits that hang together: each is the
root, or one of the pieces of another (`Linked`). In the middle of
`force_to_leaf` some splits hang loose, and the invariant `Inv` names them:
those under the intermediary split until each of its pieces is split, and
those queued for hoovering up. Simplifying a split whose pieces are split
alike keeps it, whatever hangs loose.

That every number lies in exactly one leaf needs no more than that no split
goes beyond 24 bits: queuing the pieces of a fragment for the fragment keeps
count of what contains the number.

`force_to_leaf` does not always make a leaf: after the last intermediate
fragment is split all pieces are split alike, the intermediary split is
simplified away, and the last assertion fails. What it leaves is a partition
all the same, so a step takes its tree from before that assertion.
-/
import Ceph.Include.Frag
import Ceph.Lib.Run
import Mathlib.Data.List.Nodup
import Mathlib.Data.Nat.Bitwise
import Mathlib.Tactic.Ring

namespace Ceph
namespace Frags

open List Option Function

/-! ### Fragments of at most 24 bits -/

theorem full_shift : ∀ b ≤ 24, 0xffffffff >>> (32 - b) = 2 ^ b - 1 := by decide

namespace Frag

theorem enc_eq (x : Frag) : x.enc = x.bits * 2 ^ 24 + x.value := by
  have hval : x.value = x.enc % 2 ^ 24 := Nat.and_two_pow_sub_one_eq_mod x.enc 24
  have hbits : x.bits = x.enc / 2 ^ 24 := Nat.shiftRight_eq_div_pow x.enc 24
  omega

theorem ext_bits {x y : Frag} (hb : x.bits = y.bits) (hv : x.value = y.value) : x = y := by
  have henc : x.enc = y.enc := by rw [enc_eq x, enc_eq y, hb, hv]
  cases x
  cases y
  exact congrArg _ henc

theorem mask_eq {x : Frag} (h : x.bits ≤ 24) : x.mask = 2 ^ x.bits - 1 := full_shift x.bits h

theorem contains_iff {x : Frag} (h : x.bits ≤ 24) (v : ℕ) : x.contains v = true ↔ v % 2 ^ x.bits = x.value := by
  rw [contains, mask_eq h, Nat.and_two_pow_sub_one_eq_mod]
  exact decide_eq_true_iff

end Frag

section frag

variable {v b : ℕ}

theorem enc_frag (hb : b ≤ 24) : (frag v b).enc = b * 2 ^ 24 + v % 2 ^ b := by
  have hle : 2 ^ b ≤ 2 ^ 24 := Nat.pow_le_pow_right (by decide) hb
  rw [frag, full_shift b hb, Nat.and_two_pow_sub_one_eq_mod, Nat.shiftLeft_eq]
  exact Nat.mod_eq_of_lt (by omega)

theorem bits_frag (hb : b ≤ 24) : (frag v b).bits = b := by
  have hle : 2 ^ b ≤ 2 ^ 24 := Nat.pow_le_pow_right (by decide) hb
  have henc := enc_frag (v := v) hb
  rw [Frag.bits, Nat.shiftRight_eq_div_pow, henc]
  omega

theorem value_frag (hb : b ≤ 24) : (frag v b).value = v % 2 ^ b := by
  have h1 := (frag v b).enc_eq
  rw [enc_frag hb, bits_frag hb] at h1
  omega

theorem wf_frag (hb : b ≤ 24) : (frag v b).Wf := by
  refine ⟨(bits_frag hb).le.trans hb, ?_⟩
  rw [value_frag hb, bits_frag hb]
  exact Nat.mod_lt _ (Nat.two_pow_pos b)

end frag

theorem bits_root : root.bits = 0 := rfl

theorem wf_root : root.Wf := ⟨by decide, by decide⟩

theorem eq_root {x : Frag} (h : x.Wf) (h0 : x.bits = 0) : x = root := by
  refine Frag.ext_bits (h0.trans bits_root.symm) ?_
  have := h.value_lt
  rw [h0] at this
  show x.value = 0
  omega

theorem contains_root (v : ℕ) : root.contains v = true := by
  rw [Frag.contains_iff (by decide), bits_root, pow_zero, Nat.mod_one]
  rfl

section pieces

variable {x y : Frag} {nb : ℕ}

/-- Piece `i` of a fragment. -/
theorem piece_value (hx : x.Wf) (i : ℕ) : x.value ||| (i <<< x.bits) = i * 2 ^ x.bits + x.value := by
  rw [Nat.or_comm, ← Nat.shiftLeft_add_eq_or_of_lt hx.value_lt, Nat.shiftLeft_eq]

theorem mem_split (hx : x.Wf) (hb : x.bits + nb ≤ 24) :
    y ∈ x.split nb ↔ y.Wf ∧ y.bits = x.bits + nb ∧ y.value % 2 ^ x.bits = x.value := by
  rw [Frag.split, List.mem_map]
  constructor
  · rintro ⟨i, hi, rfl⟩
    refine ⟨wf_frag hb, bits_frag hb, ?_⟩
    rw [value_frag hb, Nat.mod_mod_of_dvd _ (pow_dvd_pow 2 (Nat.le_add_right _ _)), piece_value hx,
      mul_comm, Nat.mul_add_mod, Nat.mod_eq_of_lt hx.value_lt]
  · rintro ⟨hy, hbits, hval⟩
    refine ⟨y.value / 2 ^ x.bits, ?_, ?_⟩
    · have hlt := hy.value_lt
      rw [hbits, pow_add] at hlt
      rw [mem_range, Nat.one_shiftLeft]
      exact Nat.div_lt_of_lt_mul hlt
    · refine Frag.ext_bits ((bits_frag hb).trans hbits.symm) ?_
      rw [value_frag hb, piece_value hx, ← hval, Nat.div_add_mod', ← hbits]
      exact Nat.mod_eq_of_lt hy.value_lt

theorem mem_split_split {a b : ℕ} (hx : x.Wf) (hb : x.bits + (a + b) ≤ 24) :
    y ∈ x.split (a + b) ↔ ∃ s ∈ x.split a, y ∈ s.split b := by
  rw [mem_split hx hb]
  constructor
  · rintro ⟨hy, hbits, hval⟩
    have hs : x.bits + a ≤ 24 := by omega
    have hmem : frag y.value (x.bits + a) ∈ x.split a := by
      rw [mem_split hx hs, bits_frag hs, value_frag hs]
      refine ⟨wf_frag hs, rfl, ?_⟩
      rw [Nat.mod_mod_of_dvd _ (pow_dvd_pow 2 (Nat.le_add_right _ _)), hval]
    refine ⟨_, hmem, (mem_split (wf_frag hs) (by rw [bits_frag hs]; omega)).mpr ⟨hy, ?_, ?_⟩⟩
    · rw [bits_frag hs, hbits, add_assoc]
    · rw [bits_frag hs, value_frag hs]
  · rintro ⟨s, hs, hy⟩
    obtain ⟨hsw, hsb, hsv⟩ := (mem_split hx (by omega)).mp hs
    obtain ⟨hyw, hyb, hyv⟩ := (mem_split hsw (by omega)).mp hy
    refine ⟨hyw, by omega, ?_⟩
    calc y.value % 2 ^ x.bits = y.value % 2 ^ s.bits % 2 ^ x.bits :=
          (Nat.mod_mod_of_dvd _ (pow_dvd_pow 2 (by omega))).symm
      _ = s.value % 2 ^ x.bits := by rw [hyv]
      _ = x.value := hsv

/-- Exactly one piece contains a number that the fragment contains, and none another. -/
theorem countP_split (hx : x.Wf) (hb : x.bits + nb ≤ 24) (v : ℕ) :
    (x.split nb).countP (fun c => c.contains v) = if x.contains v then 1 else 0 := by
  have hpiece : ∀ i ∈ List.range (1 <<< nb), (frag (x.value ||| (i <<< x.bits)) (x.bits + nb)).contains v = true ↔
      x.contains v = true ∧ i = v / 2 ^ x.bits % 2 ^ nb := fun i hi => by
    have hi : i < 2 ^ nb := by rwa [mem_range, Nat.one_shiftLeft] at hi
    have hcode : i * 2 ^ x.bits + x.value < 2 ^ (x.bits + nb) := by
      rw [pow_add]
      calc i * 2 ^ x.bits + x.value < i * 2 ^ x.bits + 2 ^ x.bits := Nat.add_lt_add_left hx.value_lt _
        _ = (i + 1) * 2 ^ x.bits := by ring
        _ ≤ 2 ^ nb * 2 ^ x.bits := Nat.mul_le_mul_right _ hi
        _ = 2 ^ x.bits * 2 ^ nb := mul_comm _ _
    rw [Frag.contains_iff ((bits_frag hb).le.trans hb), Frag.contains_iff hx.bits_le, bits_frag hb, value_frag hb,
      piece_value hx, Nat.mod_eq_of_lt hcode, pow_add, Nat.mod_mul]
    constructor
    · intro heq
      have h1 : v % 2 ^ x.bits = x.value := by
        have := congrArg (· % 2 ^ x.bits) heq
        simpa [Nat.add_mul_mod_self_left, Nat.mod_eq_of_lt hx.value_lt, add_comm (i * _), mul_comm i] using this
      refine ⟨h1, ?_⟩
      have h2 : 2 ^ x.bits * (v / 2 ^ x.bits % 2 ^ nb) = 2 ^ x.bits * i := by
        rw [h1, mul_comm i] at heq
        omega
      exact (Nat.eq_of_mul_eq_mul_left (Nat.two_pow_pos _) h2).symm
    · rintro ⟨h1, rfl⟩
      rw [h1, mul_comm, add_comm]
  rw [Frag.split, countP_map]
  by_cases hc : x.contains v = true
  · rw [if_pos hc]
    have hone : (List.range (1 <<< nb)).count (v / 2 ^ x.bits % 2 ^ nb) = 1 := by
      refine count_eq_one_of_mem nodup_range ?_
      rw [mem_range, Nat.one_shiftLeft]
      exact Nat.mod_lt _ (Nat.two_pow_pos _)
    refine (countP_congr fun i hi => ?_).trans hone
    rw [comp_apply, hpiece i hi, beq_iff_eq]
    exact and_iff_right hc
  · rw [if_neg hc, countP_eq_zero]
    intro i hi hcon
    exact hc ((hpiece i hi).mp hcon).1

end pieces

/-! ### What hangs together -/

/-- `x` is one of the pieces that `p` is split into. -/
def Child (t : Fragtree) (p x : Frag) : Prop := getSplit t p ≠ 0 ∧ x ∈ p.split (getSplit t p)

/-- `x` is the root or a piece of a split. -/
def Linked (t : Fragtree) (x : Frag) : Prop := x = root ∨ ∃ p, Child t p x

/-- Reached from the root by splits. -/
inductive Reached (t : Fragtree) : Frag → Prop
  | root : Reached t root
  | piece {p x : Frag} : Reached t p → Child t p x → Reached t x

/-- Splits stay within 24 bits, and each is linked unless it is in `loose`. -/
structure Inv (loose : Frag → Prop) (t : Fragtree) : Prop where
  key : ∀ x v, t x = some v → v ≠ 0
  wf : ∀ x, getSplit t x ≠ 0 → x.Wf ∧ x.bits + getSplit t x ≤ 24
  linked : ∀ x, getSplit t x ≠ 0 → Linked t x ∨ loose x

theorem inv_empty : Inv (fun _ => False) empty := ⟨nofun, fun _ h => absurd rfl h, fun _ h => absurd rfl h⟩

section inv

variable {loose : Frag → Prop} {t : Fragtree}

theorem Inv.mono {loose' : Frag → Prop} (h : Inv loose t) (hl : ∀ x, getSplit t x ≠ 0 → loose x → loose' x) :
    Inv loose' t :=
  ⟨h.key, h.wf, fun x hx => (h.linked x hx).imp id (hl x hx)⟩

theorem Inv.child (h : Inv loose t) {p x : Frag} (hc : Child t p x) :
    x.Wf ∧ x.bits = p.bits + getSplit t p ∧ p.bits < x.bits ∧ x.value % 2 ^ p.bits = p.value := by
  obtain ⟨hp, hb⟩ := h.wf p hc.1
  obtain ⟨hx, hbits, hval⟩ := (mem_split hp hb).mp hc.2
  have := hc.1
  exact ⟨hx, hbits, by omega, hval⟩

theorem Inv.child_ne (h : Inv loose t) {p x : Frag} (hc : Child t p x) : p ≠ x := fun heq => by
  have := (h.child hc).2.2.1
  rw [heq] at this
  omega

theorem Inv.child_ne_root (h : Inv loose t) {p x : Frag} (hc : Child t p x) : x ≠ root := fun heq => by
  have := (h.child hc).2.2.1
  rw [heq, bits_root] at this
  omega

theorem Inv.wf_linked (h : Inv loose t) {x : Frag} (hx : Linked t x) : x.Wf := by
  obtain rfl | ⟨p, hp⟩ := hx
  · exact wf_root
  · exact (h.child hp).1

theorem Inv.reached (h : Inv (fun _ => False) t) : ∀ (n : ℕ) (x : Frag), x.bits ≤ n → Linked t x → Reached t x
  | _, _, _, .inl rfl => .root
  | 0, x, hn, .inr ⟨p, hp⟩ => by
    have := (h.child hp).2.2.1
    omega
  | n + 1, x, hn, .inr ⟨p, hp⟩ => by
    have hlt := (h.child hp).2.2.1
    have hl : Linked t p := (h.linked p hp.1).resolve_right id
    exact .piece (h.reached n p (by omega) hl) hp

end inv

@[simp] theorem getSplit_put_self (t : Fragtree) (x : Frag) (b : ℕ) : getSplit (put t x b) x = b := by
  rw [getSplit, put, update_self]
  rfl

theorem getSplit_put_ne {t : Fragtree} {x y : Frag} (b : ℕ) (h : y ≠ x) : getSplit (put t x b) y = getSplit t y := by
  rw [getSplit, put, update_of_ne h]
  rfl

@[simp] theorem getSplit_erase_self (t : Fragtree) (x : Frag) : getSplit (erase t x) x = 0 := by
  rw [getSplit, erase, update_self]
  rfl

theorem getSplit_erase_ne {t : Fragtree} {x y : Frag} (h : y ≠ x) : getSplit (erase t x) y = getSplit t y := by
  rw [getSplit, erase, update_of_ne h]
  rfl

/-! ### The queue -/

section walk

variable {t : Fragtree} {skip : Frag → Bool}

theorem walk_nil (n : ℕ) (ls : List Frag) : walk t skip n [] ls = some ls := by
  cases n <;> rfl

/-- What the loop lists is unsplit, and has what the queue had and pieces inherit. -/
theorem walk_leaves {P : Frag → Prop} (hP : ∀ p c, P p → Child t p c → P c) : ∀ (n : ℕ) (q ls r : List Frag),
    (∀ f ∈ q, P f) → (∀ f ∈ ls, P f ∧ getSplit t f = 0) → walk t skip n q ls = some r →
    ∀ f ∈ r, P f ∧ getSplit t f = 0
  | n, [], ls, r, _, hls, h => by
    rw [walk_nil] at h
    exact some.inj h ▸ hls
  | n + 1, f :: q, ls, r, hq, hls, h => by
    obtain ⟨hf, hq⟩ := forall_mem_cons.mp hq
    rw [walk] at h
    by_cases hs : skip f = true
    · rw [if_pos hs] at h
      exact walk_leaves hP n q ls r hq hls h
    · rw [if_neg hs] at h
      by_cases hg : getSplit t f = 0
      · rw [if_neg (not_not_intro hg)] at h
        refine walk_leaves hP n q (ls ++ [f]) r hq (fun g hg' => ?_) h
        obtain hg' | hg' := mem_append.mp hg'
        · exact hls g hg'
        · rw [mem_singleton.mp hg']
          exact ⟨hf, hg⟩
      · rw [if_pos hg] at h
        refine walk_leaves hP n (q ++ f.split (getSplit t f)) ls r (fun g hg' => ?_) hls h
        obtain hg' | hg' := mem_append.mp hg'
        · exact hq g hg'
        · exact hP f g hf ⟨hg, hg'⟩

/-- `is_leaf` is true of fragments that are linked and not split. -/
theorem isLeaf_spec {x : Frag} (h : isLeaf t x = true) : Linked t x ∧ getSplit t x = 0 := by
  have h : getLeavesUnder t x = some [x] := of_decide_eq_true h
  obtain ⟨branch, hbranch, hw⟩ := bind_eq_some_iff.mp h
  have hroot : branch = root ∨ getSplit t branch ≠ 0 := by
    generalize height x = n at hbranch
    generalize hy : x = y at hbranch
    clear hy
    induction n generalizing y with
    | zero => cases hbranch
    | succ n ih =>
      rw [getBranch] at hbranch
      by_cases hr : y = root
      · rw [if_pos hr] at hbranch
        exact .inl (some.inj hbranch ▸ hr)
      · rw [if_neg hr] at hbranch
        by_cases hs : getSplit t y ≠ 0
        · rw [if_pos hs] at hbranch
          exact .inr (some.inj hbranch ▸ hs)
        · rw [if_neg hs] at hbranch
          obtain ⟨z, -, hz⟩ := bind_eq_some_iff.mp hbranch
          exact ih z hz
  have hP : ∀ p c, (p = branch ∨ Linked t p) → Child t p c → (c = branch ∨ Linked t c) :=
    fun p c _ hc => .inr (.inr ⟨p, hc⟩)
  obtain ⟨hx, h0⟩ := walk_leaves hP fuel [branch] [] [x] (by simp) nofun hw x (mem_singleton_self x)
  refine ⟨hx.elim (fun heq => ?_) id, h0⟩
  subst heq
  exact .inl (hroot.resolve_right (not_not_intro h0))

/-- Fuel that the queue does not use up: a fragment of `b` bits has at most
`2 ^ (24 - b)` leaves and fewer splits. -/
def weight (q : List Frag) : ℕ := (q.map fun f => 2 ^ (25 - f.bits) - 1).sum

theorem weight_append (q q' : List Frag) : weight (q ++ q') = weight q + weight q' := by
  rw [weight, map_append, sum_append]
  rfl

theorem weight_cons (f : Frag) (q : List Frag) : weight (f :: q) = 2 ^ (25 - f.bits) - 1 + weight q := by
  rfl

theorem weight_split {f : Frag} {nb : ℕ} (hf : f.Wf) (hb : f.bits + nb ≤ 24) (hnb : nb ≠ 0) :
    weight (f.split nb) + 1 ≤ 2 ^ (25 - f.bits) - 1 := by
  have hall : ∀ c ∈ f.split nb, 2 ^ (25 - c.bits) - 1 = 2 ^ (25 - (f.bits + nb)) - 1 := fun c hc => by
    rw [((mem_split hf hb).mp hc).2.1]
  have hlen : (f.split nb).length = 2 ^ nb := by
    rw [Frag.split, length_map, length_range, Nat.one_shiftLeft]
  have hpow : 2 ^ (25 - f.bits) = 2 ^ nb * 2 ^ (25 - (f.bits + nb)) := by
    rw [← pow_add]
    congr 1
    omega
  have htwo : 2 ^ 1 ≤ 2 ^ nb := Nat.pow_le_pow_right (by decide) (pos_of_ne_zero hnb)
  rw [weight, map_congr_left hall, map_const', sum_replicate_nat, hlen, hpow, Nat.mul_sub_one]
  have hle : 2 ^ nb * 1 ≤ 2 ^ nb * 2 ^ (25 - (f.bits + nb)) := Nat.mul_le_mul_left _ (Nat.two_pow_pos _)
  omega

/-- How often a number is contained in what is queued or listed stays the
same, and so does the leaf it is looked up in. -/
theorem walk_counts {loose : Frag → Prop} (h : Inv loose t) (v : ℕ) : ∀ (n : ℕ) (q ls : List Frag),
    (∀ f ∈ q, f.Wf) → weight q ≤ n → ∃ r, walk t (fun _ => false) n q ls = some r ∧
      r.countP (fun f => f.contains v) = (q ++ ls).countP fun f => f.contains v
  | n, [], ls, _, _ => ⟨ls, walk_nil n ls, rfl⟩
  | n, f :: q, ls, hq, hn => by
    obtain ⟨hf, hq⟩ := forall_mem_cons.mp hq
    rw [weight_cons] at hn
    have hpow : 2 ^ 1 ≤ 2 ^ (25 - f.bits) := Nat.pow_le_pow_right (by decide) (by have := hf.bits_le; omega)
    obtain ⟨n, rfl⟩ : ∃ k, n = k + 1 := ⟨n - 1, by omega⟩
    rw [walk, if_neg Bool.false_ne_true]
    by_cases hg : getSplit t f = 0
    · rw [if_neg (not_not_intro hg)]
      obtain ⟨r, hr, hcount⟩ := walk_counts h v n q (ls ++ [f]) hq (by omega)
      refine ⟨r, hr, hcount.trans ?_⟩
      simp only [countP_append, countP_cons, countP_nil]
      omega
    · rw [if_pos hg]
      obtain ⟨-, hb⟩ := h.wf f hg
      have hw := weight_split hf hb hg
      have hwf : ∀ c ∈ f.split (getSplit t f), c.Wf := fun c hc => ((mem_split hf hb).mp hc).1
      obtain ⟨r, hr, hcount⟩ := walk_counts h v n (q ++ f.split (getSplit t f)) ls
        (forall_mem_append.mpr ⟨hq, hwf⟩) (by rw [weight_append]; omega)
      refine ⟨r, hr, hcount.trans ?_⟩
      rw [countP_append, countP_append, countP_split hf hb, cons_append, countP_cons, countP_append]
      ring

end walk

/-! ### `operator[]` -/

section lookup

variable {loose : Frag → Prop} {t : Fragtree} {v : ℕ}

/-- From `f` the loop of `operator[]` ends at `g`, given enough fuel. -/
def Looks (t : Fragtree) (v : ℕ) (f g : Frag) : Prop := ∃ k, ∀ n, k ≤ n → lookupFrom t v n f = some g

theorem Looks.unique {f g g' : Frag} (h : Looks t v f g) (h' : Looks t v f g') : g = g' := by
  obtain ⟨k, hk⟩ := h
  obtain ⟨k', hk'⟩ := h'
  exact some.inj ((hk (max k k') (le_max_left _ _)).symm.trans (hk' (max k k') (le_max_right _ _)))

theorem find_piece {f c : Frag} (hf : f.Wf) {nb : ℕ} (hb : f.bits + nb ≤ 24) (hc : c ∈ f.split nb)
    (hv : c.contains v = true) : (f.split nb).find? (fun c => c.contains v) = some c := by
  have hcount := countP_split hf hb v
  have hfv : f.contains v = true := by
    by_contra hno
    rw [if_neg hno, countP_eq_zero] at hcount
    exact hcount c hc hv
  rw [if_pos hfv, countP_eq_length_filter] at hcount
  obtain ⟨d, hd⟩ := length_eq_one_iff.mp hcount
  have hcd : c ∈ (f.split nb).filter fun c => c.contains v := mem_filter.mpr ⟨hc, hv⟩
  rw [← head?_filter, hd, head?_cons]
  rw [hd, mem_singleton] at hcd
  rw [hcd]

theorem lookup_leaf {f : Frag} (hv : f.contains v = true) (h0 : getSplit t f = 0) (n : ℕ) :
    lookupFrom t v (n + 1) f = some f := by
  rw [lookupFrom, if_pos hv, if_pos h0]

theorem looks_leaf {f : Frag} (hv : f.contains v = true) (h0 : getSplit t f = 0) : Looks t v f f := by
  refine ⟨1, fun n hn => ?_⟩
  obtain ⟨n, rfl⟩ := Nat.exists_eq_add_of_le' hn
  exact lookup_leaf hv h0 n

theorem lookup_piece (h : Inv loose t) {f c : Frag} (hc : Child t f c) (hv : c.contains v = true) (n : ℕ) :
    f.contains v = true ∧ lookupFrom t v (n + 1) f = lookupFrom t v n c := by
  obtain ⟨hf, hb⟩ := h.wf f hc.1
  obtain ⟨hcw, -, hlt, hval⟩ := h.child hc
  have hfv : f.contains v = true := by
    rw [Frag.contains_iff hcw.bits_le] at hv
    rw [Frag.contains_iff hf.bits_le, ← hval, ← hv, Nat.mod_mod_of_dvd _ (pow_dvd_pow 2 hlt.le)]
  exact ⟨hfv, by rw [lookupFrom, if_pos hfv, if_neg hc.1, find_piece hf hb hc.2 hv, bind_some]⟩

theorem Looks.piece (h : Inv loose t) {f c g : Frag} (hl : Looks t v f g) (hc : Child t f c)
    (hv : c.contains v = true) : Looks t v c g := by
  obtain ⟨k, hk⟩ := hl
  refine ⟨k, fun n hn => ?_⟩
  rw [← (lookup_piece h hc hv n).2]
  exact hk (n + 1) (by omega)

theorem exists_lookup (h : Inv loose t) : ∀ (n : ℕ) (f : Frag), f.Wf → f.contains v = true → 24 < n + f.bits →
    ∃ g, lookupFrom t v n f = some g ∧ Looks t v f g
  | 0, f, hf, _, hn => by
    have := hf.bits_le
    omega
  | n + 1, f, hf, hv, hn => by
    by_cases h0 : getSplit t f = 0
    · exact ⟨f, lookup_leaf hv h0 n, looks_leaf hv h0⟩
    · obtain ⟨-, hb⟩ := h.wf f h0
      have hcount := countP_split hf hb v
      rw [if_pos hv] at hcount
      obtain ⟨c, hc, hcv⟩ := countP_pos_iff.mp (by omega : 0 < (f.split (getSplit t f)).countP fun c => c.contains v)
      have hchild : Child t f c := ⟨h0, hc⟩
      obtain ⟨hcw, -, hlt, -⟩ := h.child hchild
      obtain ⟨g, hg, k, hk⟩ := exists_lookup h n c hcw hcv (by omega)
      refine ⟨g, (lookup_piece h hchild hcv n).2.trans hg, k + 1, fun m hm => ?_⟩
      obtain ⟨m, rfl⟩ : ∃ j, m = j + 1 := ⟨m - 1, by omega⟩
      exact (lookup_piece h hchild hcv m).2.trans (hk m (by omega))

end lookup

/-! ### A partition -/

/-- The splits hang together, and the leaves part the numbers of 24 bits:
none is listed twice, no two have a number in common, and a number is in the
one that `operator[]` finds. -/
structure Partition (t : Fragtree) : Prop where
  keys : ∀ x v, t x = some v → Reached t x
  leaves : ∃ ls, getLeaves t = some ls ∧ ls.Nodup ∧ ls.Pairwise (fun f g => ∀ v, ¬ (f.contains v ∧ g.contains v)) ∧
    ∀ v < 2 ^ 24, ∃ f ∈ ls, f.contains v ∧ lookup t v = some f ∧ ∀ g ∈ ls, g.contains v → g = f

theorem pairwise_of_counts : ∀ {ls : List Frag}, (∀ v, ls.countP (fun f => f.contains v) ≤ 1) →
    ls.Pairwise fun f g => ∀ v, ¬ (f.contains v ∧ g.contains v)
  | [], _ => .nil
  | f :: ls, h => by
    refine pairwise_cons.mpr ⟨fun g hg v hv => ?_, pairwise_of_counts fun v => ?_⟩
    · have hpos : 0 < ls.countP fun f => f.contains v := countP_pos_iff.mpr ⟨g, hg, hv.2⟩
      have := h v
      rw [countP_cons, if_pos hv.1] at this
      omega
    · have := h v
      rw [countP_cons] at this
      omega

/-- **Nothing loose, a partition.** -/
theorem partition_of_inv {t : Fragtree} (h : Inv (fun _ => False) t) : Partition t where
  keys x v hx := by
    have hs : getSplit t x ≠ 0 := by
      rw [getSplit, hx]
      exact h.key x v hx
    exact h.reached _ x le_rfl ((h.linked x hs).resolve_right id)
  leaves := by
    have hweight : weight [root] ≤ fuel := by decide
    have hq : ∀ f ∈ [root], f.Wf := fun f hf => mem_singleton.mp hf ▸ wf_root
    obtain ⟨ls, hls, -⟩ := walk_counts h 0 fuel [root] [] hq hweight
    have hcount : ∀ v, ls.countP (fun f => f.contains v) = 1 := fun v => by
      obtain ⟨r, hr, hcount⟩ := walk_counts h v fuel [root] [] hq hweight
      obtain rfl : r = ls := some.inj (hr.symm.trans hls)
      rw [hcount, append_nil, countP_singleton, if_pos (contains_root v)]
    have hpair := pairwise_of_counts fun v => (hcount v).le
    have hleaf : ∀ f ∈ ls, f.Wf ∧ getSplit t f = 0 :=
      walk_leaves (P := Frag.Wf) (fun p c _ hc => (h.child hc).1) fuel [root] [] ls hq nofun hls
    refine ⟨ls, hls, ?_, hpair, fun v _ => ?_⟩
    · refine hpair.imp_of_mem fun {f g} hf _ hd heq => ?_
      obtain ⟨hfw, -⟩ := hleaf f hf
      have hself : f.contains f.value = true := by
        rw [Frag.contains_iff hfw.bits_le, Nat.mod_eq_of_lt hfw.value_lt]
      exact hd f.value ⟨hself, heq ▸ hself⟩
    · obtain ⟨g, hg, hlooks⟩ := exists_lookup h 25 root wf_root (contains_root v) (by decide)
      have hall : ∀ f ∈ ls, (f.contains v = true → Looks t v f g) ∧ getSplit t f = 0 := by
        refine walk_leaves (fun p c hp hc hv => ?_) fuel [root] [] ls (fun f hf _ => mem_singleton.mp hf ▸ hlooks)
          nofun hls
        exact (hp (lookup_piece h hc hv 0).1).piece h hc hv
      have honly : ∀ f ∈ ls, f.contains v = true → f = g := fun f hf hv =>
        (looks_leaf hv (hall f hf).2).unique ((hall f hf).1 hv)
      obtain ⟨f, hf, hv⟩ := countP_pos_iff.mp (by rw [hcount v]; exact one_pos)
      obtain rfl := honly f hf hv
      exact ⟨f, hf, hv, hg, honly⟩

/-! ### Simplifying -/

section simplify

variable {loose : Frag → Prop} {t t' : Fragtree}

theorem childBits_spec : ∀ (ps : List Frag) (k : ℕ), childBits t ps k ≠ 0 →
    (k ≠ 0 → childBits t ps k = k) ∧ ∀ p ∈ ps, getSplit t p = childBits t ps k
  | [], k, _ => ⟨fun _ => rfl, nofun⟩
  | p :: ps, k, h => by
    by_cases h0 : getSplit t p = 0
    · rw [childBits, if_pos h0] at h
      exact absurd rfl h
    · by_cases hk : k ≠ 0 ∧ getSplit t p ≠ k
      · rw [childBits, if_neg h0, if_pos hk] at h
        exact absurd rfl h
      · have heq : childBits t (p :: ps) k = childBits t ps (getSplit t p) := by
          rw [childBits, if_neg h0, if_neg hk]
        rw [heq] at h ⊢
        obtain ⟨hself, hrest⟩ := childBits_spec ps (getSplit t p) h
        refine ⟨fun hne => ?_, fun q hq => ?_⟩
        · rw [hself h0]
          exact not_not.mp fun hcon => hk ⟨hne, hcon⟩
        · obtain rfl | hq := mem_cons.mp hq
          · exact (hself h0).symm
          · exact hrest q hq

theorem foldl_erase : ∀ (ps : List Frag) (t : Fragtree) (y : Frag),
    ps.foldl erase t y = if y ∈ ps then none else t y
  | [], _, _ => rfl
  | p :: ps, t, y => by
    rw [foldl_cons, foldl_erase ps]
    by_cases hy : y ∈ ps
    · rw [if_pos hy, if_pos (mem_cons_of_mem p hy)]
    · rw [if_neg hy]
      by_cases hp : y = p
      · rw [hp, erase, update_self, if_pos mem_cons_self]
      · rw [erase, update_of_ne hp, if_neg fun hmem => (mem_cons.mp hmem).elim hp hy]

/-- Pieces that are all split alike are taken in: they are split no more and `x` by so much more. -/
theorem assimilate_alike (h : Inv loose t) {x : Frag} (h0 : getSplit t x ≠ 0)
    (hk : childBits t (x.split (getSplit t x)) 0 ≠ 0) (y : Frag) : tryAssimilateChildren t x y =
      if y = x then some (getSplit t x + childBits t (x.split (getSplit t x)) 0)
      else if y ∈ x.split (getSplit t x) then none else t y := by
  have hx : x ∉ x.split (getSplit t x) := fun hmem => h.child_ne ⟨h0, hmem⟩ rfl
  have hself : getSplit ((x.split (getSplit t x)).foldl erase t) x = getSplit t x := by
    rw [getSplit, foldl_erase, if_neg hx]
    rfl
  rw [tryAssimilateChildren, if_neg h0, if_neg hk, hself, put]
  by_cases hy : y = x
  · rw [hy, update_self, if_pos rfl]
  · rw [update_of_ne hy, if_neg hy, foldl_erase]

/-- **What `try_assimilate_children` does**: nothing, or the pieces of `x`, all
split by `k`, are split no more and `x` is split by so much more. -/
theorem assimilate_cases (h : Inv loose t) (x : Frag) :
    tryAssimilateChildren t x = t ∨ ∃ k, k ≠ 0 ∧ getSplit t x ≠ 0 ∧ (∀ p ∈ x.split (getSplit t x), getSplit t p = k) ∧
      ∀ y, tryAssimilateChildren t x y =
        if y = x then some (getSplit t x + k) else if y ∈ x.split (getSplit t x) then none else t y := by
  by_cases h0 : getSplit t x = 0
  · exact .inl (if_pos h0)
  by_cases hk : childBits t (x.split (getSplit t x)) 0 = 0
  · exact .inl (by rw [tryAssimilateChildren, if_neg h0, if_pos hk])
  · exact .inr ⟨_, hk, h0, (childBits_spec _ 0 hk).2, assimilate_alike h h0 hk⟩

/-- Simplifying keeps the invariant, and splits nothing that was not split. -/
theorem assimilate_inv (h : Inv loose t) (x : Frag) :
    Inv loose (tryAssimilateChildren t x) ∧ ∀ y, getSplit t y = 0 → getSplit (tryAssimilateChildren t x) y = 0 := by
  obtain heq | ⟨k, hk, h0, hpieces, hget⟩ := assimilate_cases h x
  · rw [heq]
    exact ⟨h, fun _ hy => hy⟩
  generalize tryAssimilateChildren t x = t' at hget
  obtain ⟨hx, hb⟩ := h.wf x h0
  have hself : getSplit t' x = getSplit t x + k := by
    rw [getSplit, hget, if_pos rfl]
    rfl
  have hpiece : ∀ y ∈ x.split (getSplit t x), y ≠ x ∧ getSplit t' y = 0 := fun y hy => by
    have hne : y ≠ x := (h.child_ne ⟨h0, hy⟩).symm
    refine ⟨hne, ?_⟩
    rw [getSplit, hget, if_neg hne, if_pos hy]
    rfl
  have hother : ∀ y, y ≠ x → y ∉ x.split (getSplit t x) → getSplit t' y = getSplit t y := fun y hne hy => by
    rw [getSplit, hget, if_neg hne, if_neg hy]
    rfl
  -- some piece of `x` is split by `k`, within 24 bits
  obtain ⟨c, hc⟩ : ∃ c, c ∈ x.split (getSplit t x) := ⟨_, List.mem_map.mpr ⟨0, by
    rw [mem_range, Nat.one_shiftLeft]
    exact Nat.two_pow_pos _, rfl⟩⟩
  have hfit : x.bits + (getSplit t x + k) ≤ 24 := by
    have hcb := (h.child ⟨h0, hc⟩).2.1
    have hck := hpieces c hc
    obtain ⟨-, hle⟩ := h.wf c (by rw [hck]; exact hk)
    omega
  refine ⟨⟨fun y v hy => ?_, fun y hy => ?_, fun y hy => ?_⟩, fun y hy => ?_⟩
  · rw [hget] at hy
    by_cases hyx : y = x
    · rw [if_pos hyx] at hy
      have := some.inj hy
      omega
    · rw [if_neg hyx] at hy
      exact h.key y v (ite_none_left_eq_some.mp hy).2
  · by_cases hyx : y = x
    · rw [hyx, hself]
      exact ⟨hx, hfit⟩
    · by_cases hmem : y ∈ x.split (getSplit t x)
      · exact absurd (hpiece y hmem).2 hy
      · rw [hother y hyx hmem] at hy ⊢
        exact h.wf y hy
  · by_cases hmem : y ∈ x.split (getSplit t x)
    · exact absurd (hpiece y hmem).2 hy
    have hys : getSplit t y ≠ 0 := by
      by_cases hyx : y = x
      · rw [hyx]
        exact h0
      · rwa [hother y hyx hmem] at hy
    refine (h.linked y hys).imp_left fun hl => ?_
    obtain hr | ⟨p, hp⟩ := hl
    · exact .inl hr
    by_cases hpx : p = x
    · rw [hpx] at hp
      exact absurd hp.2 hmem
    by_cases hpm : p ∈ x.split (getSplit t x)
    · -- a piece of a piece is a piece of `x` now
      refine .inr ⟨x, ?_, ?_⟩
      · rw [hself]
        omega
      · rw [hself, mem_split_split hx hfit]
        exact ⟨p, hpm, hpieces p hpm ▸ hp.2⟩
    · refine .inr ⟨p, ?_⟩
      rw [Child, hother p hpx hpm]
      exact hp
  · by_cases hyx : y = x
    · exact absurd (hyx ▸ hy) h0
    · by_cases hmem : y ∈ x.split (getSplit t x)
      · exact (hpiece y hmem).2
      · rw [hother y hyx hmem, hy]

theorem simplify_inv {x : Frag} (h : Inv loose t) (hs : simplify t x = some t') :
    Inv loose t' ∧ ∀ y, getSplit t y = 0 → getSplit t' y = 0 := by
  obtain ⟨b, -, rfl⟩ := map_eq_some_iff.mp hs
  exact assimilate_inv h b

end simplify

/-! ### `split` and `merge` -/

section modify

variable {loose : Frag → Prop} {t t' : Fragtree} {x : Frag} {b : ℕ}

/-- A fragment that hangs together is split: its pieces hang loose no more. -/
theorem put_inv (h : Inv loose t) (hb : b ≠ 0) (hfit : x.bits + b ≤ 24) (hlinked : Linked t x)
    (h0 : getSplit t x = 0) : Inv (fun y => loose y ∧ y ∉ x.split b) (put t x b) := by
  refine ⟨fun y v hy => ?_, fun y hy => ?_, fun y hy => ?_⟩
  · by_cases hyx : y = x
    · rw [hyx, put, update_self] at hy
      exact some.inj hy ▸ hb
    · rw [put, update_of_ne hyx] at hy
      exact h.key y v hy
  · by_cases hyx : y = x
    · rw [hyx, getSplit_put_self]
      exact ⟨h.wf_linked hlinked, hfit⟩
    · rw [getSplit_put_ne b hyx] at hy ⊢
      exact h.wf y hy
  · have hkeep : ∀ z, Linked t z → Linked (put t x b) z := fun z hz => by
      obtain hr | ⟨p, hp⟩ := hz
      · exact .inl hr
      · have hpx : p ≠ x := fun heq => hp.1 (heq ▸ h0)
        refine .inr ⟨p, ?_⟩
        rw [Child, getSplit_put_ne b hpx]
        exact hp
    by_cases hyx : y = x
    · exact .inl (hyx ▸ hkeep x hlinked)
    · rw [getSplit_put_ne b hyx] at hy
      obtain hl | hl := h.linked y hy
      · exact .inl (hkeep y hl)
      · by_cases hmem : y ∈ x.split b
        · refine .inl (.inr ⟨x, ?_, ?_⟩)
          · rw [getSplit_put_self]
            exact hb
          · rw [getSplit_put_self]
            exact hmem
        · exact .inr ⟨hl, hmem⟩

/-- What `split` leaves loose: what was, unless it is one of the new pieces. -/
theorem split_inv (h : Inv loose t) (hb : b ≠ 0) (hfit : x.bits + b ≤ 24) (hs : split t x b = some t') :
    Inv (fun y => loose y ∧ y ∉ x.split b) t' := by
  obtain ⟨hleaf, hs⟩ := ite_none_right_eq_some.mp hs
  obtain ⟨hlinked, h0⟩ := isLeaf_spec hleaf
  exact (simplify_inv (put_inv h hb hfit hlinked h0) hs).1

theorem erase_inv (h : Inv loose t) (x : Frag) :
    Inv (fun y => loose y ∧ y ≠ x ∨ y ∈ x.split (getSplit t x)) (erase t x) := by
  have hne : ∀ y, getSplit (erase t x) y ≠ 0 → y ≠ x := fun y hy heq => hy (heq ▸ getSplit_erase_self t x)
  refine ⟨fun y v hy => ?_, fun y hy => ?_, fun y hy => ?_⟩
  · by_cases hyx : y = x
    · rw [hyx, erase, update_self] at hy
      cases hy
    · rw [erase, update_of_ne hyx] at hy
      exact h.key y v hy
  · have hyx := hne y hy
    rw [getSplit_erase_ne hyx] at hy ⊢
    exact h.wf y hy
  · have hyx := hne y hy
    rw [getSplit_erase_ne hyx] at hy
    obtain (hr | ⟨p, hp⟩) | hl := h.linked y hy
    · exact .inl (.inl hr)
    · by_cases hpx : p = x
      · exact .inr (.inr (hpx ▸ hp.2))
      · refine .inl (.inr ⟨p, ?_⟩)
        rw [Child, getSplit_erase_ne hpx]
        exact hp
    · exact .inr (.inl ⟨hl, hyx⟩)

/-- What `merge` leaves loose: the pieces of `x`, and not `x`. -/
theorem merge_inv (h : Inv loose t) (hs : merge t x b = some t') :
    Inv (fun y => loose y ∧ y ≠ x ∨ y ∈ x.split b) t' ∧ ∀ y, getSplit t y = 0 → getSplit t' y = 0 := by
  obtain ⟨⟨-, rfl⟩, hsimp⟩ := ite_none_right_eq_some.mp hs
  obtain ⟨hinv, hzero⟩ := simplify_inv (erase_inv h x) hsimp
  refine ⟨hinv, fun y hy => hzero y ?_⟩
  by_cases hyx : y = x
  · rw [hyx, getSplit_erase_self]
  · rw [getSplit_erase_ne hyx, hy]

end modify

/-! ### `force_to_leaf` -/

section force

variable {t t' : Fragtree}

theorem splitEach_inv {b : ℕ} (hb : b ≠ 0) : ∀ (ps : List Frag) {loose : Frag → Prop} {t t' : Fragtree}, Inv loose t →
    (∀ p ∈ ps, p.bits + b ≤ 24) → splitEach b ps t = some t' →
    Inv (fun y => loose y ∧ ∀ p ∈ ps, y ∉ p.split b) t'
  | [], _, _, _, h, _, hs => by
    cases hs
    exact h.mono fun y _ hy => ⟨hy, nofun⟩
  | p :: ps, _, _, _, h, hfit, hs => by
    obtain ⟨t1, h1, hs⟩ := bind_eq_some_iff.mp hs
    obtain ⟨hp, hps⟩ := forall_mem_cons.mp hfit
    refine (splitEach_inv hb ps (split_inv h hb hp h1) hps hs).mono fun y _ hy => ⟨hy.1.1, ?_⟩
    exact forall_mem_cons.mpr ⟨hy.1.2, hy.2⟩

theorem hoover_inv : ∀ (n : ℕ) (q : List Frag) {t t' : Fragtree}, Inv (fun y => y ∈ q) t → hoover n q t = some t' →
    Inv (fun _ => False) t'
  | n, [], t, t', h, hs => by
    have hs : some t = some t' := by
      cases n <;> exact hs
    cases hs
    exact h.mono fun y _ hy => not_mem_nil hy
  | n + 1, f :: q, t, t', h, hs => by
    rw [hoover] at hs
    by_cases h0 : getSplit t f = 0
    · rw [if_pos h0] at hs
      refine hoover_inv n q (h.mono fun y hy hmem => ?_) hs
      obtain rfl | hmem := mem_cons.mp hmem
      · exact absurd h0 hy
      · exact hmem
    · rw [if_neg h0] at hs
      obtain ⟨t1, h1, hs⟩ := bind_eq_some_iff.mp hs
      refine hoover_inv n _ ((merge_inv h h1).1.mono fun y _ hy => ?_) hs
      rw [mem_append]
      exact hy.imp (fun hy => (mem_cons.mp hy.1).resolve_left hy.2) id

theorem intermediate_inv {parent : Frag} {nb spread : ℕ} (h : Inv (fun _ => False) t) (hnb : nb ≠ 0)
    (hspread : spread ≠ 0) (hs : intermediate t parent nb spread = some t') : Inv (fun _ => False) t' := by
  obtain ⟨hlt, hs⟩ := ite_none_right_eq_some.mp hs
  obtain ⟨t1, h1, hs⟩ := bind_eq_some_iff.mp hs
  obtain ⟨t2, h2, hs⟩ := bind_eq_some_iff.mp hs
  have hget : getSplit t parent = nb := (ite_none_right_eq_some.mp h1).1.2
  obtain ⟨hp, hfit⟩ := h.wf parent (by rw [hget]; exact hnb)
  have hmerged := (merge_inv h h1).1
  have hsplit := split_inv hmerged hspread (by omega) h2
  have hsubs : ∀ p ∈ parent.split spread, p.bits + (nb - spread) ≤ 24 := fun p hp' => by
    have := ((mem_split hp (by omega)).mp hp').2.1
    omega
  refine (splitEach_inv (by omega) _ hsplit hsubs hs).mono fun y _ hy => ?_
  obtain ⟨⟨hloose | hmem, -⟩, hnone⟩ := hy
  · exact hloose.1
  · have hsum : nb = spread + (nb - spread) := by omega
    rw [hsum, mem_split_split hp (by omega)] at hmem
    obtain ⟨p, hp', hyp⟩ := hmem
    exact hnone p hp' hyp

/-- **`force_to_leaf`**, up to its last assertion, leaves nothing loose. -/
theorem forceTree_inv {x : Frag} (h : Inv (fun _ => False) t) (hx : x.bits ≤ 24) (hs : forceTree t x = some t') :
    Inv (fun _ => False) t' := by
  rw [forceTree] at hs
  by_cases hleaf : isLeaf t x = true
  · rw [if_pos hleaf] at hs
    exact some.inj hs ▸ h
  rw [if_neg hleaf] at hs
  obtain ⟨parent, -, hs⟩ := bind_eq_some_iff.mp hs
  have hhoover : ∀ u, Inv (fun _ => False) u → hoover fuel [x] u = some t' → Inv (fun _ => False) t' :=
    fun u hu hh => hoover_inv fuel [x] (hu.mono fun _ _ hf => hf.elim) hh
  by_cases hlt : parent.bits < x.bits
  · rw [if_pos hlt] at hs
    by_cases h0 : getSplit t parent = 0
    · rw [if_pos h0] at hs
      exact (split_inv h (by omega) (by omega) hs).mono fun _ _ hy => hy.1
    · rw [if_neg h0] at hs
      obtain ⟨u, hu, hs⟩ := bind_eq_some_iff.mp hs
      exact hhoover u (intermediate_inv h h0 (by omega) hu) hs
  · rw [if_neg hlt] at hs
    exact hhoover t h (ite_none_right_eq_some.mp hs).2

end force

/-! ### Any sequence of calls -/

inductive Op
  | split (x : Frag) (b : ℕ)
  | merge (x : Frag) (b : ℕ)
  | forceToLeaf (x : Frag)
deriving DecidableEq, Repr

/-- One call. Of `force_to_leaf`, the tree before the last assertion. -/
def step (t : Fragtree) : Op → Option Fragtree
  | .split x b => split t x b
  | .merge x b => merge t x b
  | .forceToLeaf x => forceTree t x

/-- A leaf is split within 24 bits; a split whose pieces are leaves is merged;
any fragment of at most 24 bits is forced. -/
def Allowed (t : Fragtree) : Op → Prop
  | .split x b => isLeaf t x = true ∧ 0 < b ∧ x.bits + b ≤ 24
  | .merge x b => getSplit t x = b ∧ 0 < b ∧ ∀ c ∈ x.split b, isLeaf t c = true
  | .forceToLeaf x => x.bits ≤ 24

instance (t : Fragtree) : ∀ op, Decidable (Allowed t op)
  | .split _ _ => inferInstanceAs (Decidable (_ ∧ _))
  | .merge _ _ => inferInstanceAs (Decidable (_ ∧ _))
  | .forceToLeaf _ => inferInstanceAs (Decidable (_ ≤ _))

/-- **One call** leaves nothing loose. -/
theorem step_inv {t t' : Fragtree} {op : Op} (h : Inv (fun _ => False) t) (hok : Allowed t op)
    (hs : step t op = some t') : Inv (fun _ => False) t' := by
  cases op with
  | split x b => exact (split_inv h (by have := hok.2.1; omega) hok.2.2 hs).mono fun _ _ hy => hy.1
  | merge x b =>
    obtain ⟨hinv, hzero⟩ := merge_inv h hs
    refine hinv.mono fun y hy hl => ?_
    obtain hl | hl := hl
    · exact hl.1
    · exact hy (hzero y (isLeaf_spec (hok.2.2 y hl)).2)
  | forceToLeaf x => exact forceTree_inv h hok hs

/-- **A fragment tree always partitions the namespace.** -/
theorem always_partition (t : Fragtree) (h : Run.Reach step Allowed empty t) : Partition t :=
  partition_of_inv (h.inv (Inv fun _ => False) inv_empty fun _ _ _ hi hok hs => step_inv hi hok hs)

/-- Two calls of `force_to_leaf`, the second of which fails its last assertion, then a split of a leaf and its merge. -/
theorem always_partition_forced : ∃ t, Run.Reach step Allowed empty t ∧ getSplit t root = 3 ∧
    isLeaf t (frag 1 1) = false ∧ Partition t := by
  have hrun : ((Run.exec step Allowed [.forceToLeaf (frag 5 3), .forceToLeaf (frag 1 1), .split (frag 2 3) 2,
      .merge (frag 2 3) 2] empty).map fun t => (getSplit t root, isLeaf t (frag 1 1))) = some (3, false) := by
    decide +kernel
  obtain ⟨t, ht, heq⟩ := map_eq_some_iff.mp hrun
  obtain ⟨h1, h2⟩ := Prod.mk.inj heq
  exact ⟨t, Run.reach_of_exec ht, h1, h2, always_partition t (Run.reach_of_exec ht)⟩

end Frags
end Ceph
