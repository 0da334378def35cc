/-
# Values as bytes

A `Codec` writes values as bytes and reads them back from the head of what it
is given. `c.Reads a` says that `a` comes back, whatever follows it; it is
proved of a codec built from others by the rules below. Numbers are
little-endian of a fixed width, so one that is too large does not come back;
lists and strings carry their length in four bytes. `c.Local` says that reading
takes no notice of what follows, so a text cut short reads as the whole one or not at all.

Key definitions: `Codec`, `Codec.Reads`, `Codec.Local`, `raw`, `signed`, `blob`, `list`, `listOf`, `pair`,
`via`.
Key theorems: `reads_raw`, `reads_blob`, `reads_list`, `dec_list`,
`Reads.pair`, `Reads.via`.
-/
import Mathlib.Data.List.Basic
import Mathlib.Tactic.Linarith
import Mathlib.Tactic.Ring

namespace Ceph
namespace Wire

open List Option

abbrev Bytes := List UInt8

/-- The `k` low bytes of `n`, the lowest first. -/
def le : ℕ → ℕ → Bytes
  | 0, _ => []
  | k + 1, n => UInt8.ofNat (n % 256) :: le k (n / 256)

/-- The number that bytes stand for. -/
def unLe : Bytes → ℕ
  | [] => 0
  | b :: bs => b.toNat + 256 * unLe bs

@[simp] theorem length_le : ∀ k n : ℕ, (le k n).length = k
  | 0, _ => rfl
  | k + 1, n => by simp [le, length_le k]

theorem unLe_le : ∀ k n : ℕ, unLe (le k n) = n % 256 ^ k
  | 0, n => by simp [le, unLe, Nat.mod_one]
  | k + 1, n => by
    have hrec := unLe_le k (n / 256)
    simp only [le, unLe, hrec, UInt8.toNat_ofNat']
    have hbyte : n % 256 % 2 ^ 8 = n % 256 := by
      rw [show (2 : ℕ) ^ 8 = 256 from rfl, Nat.mod_mod]
    rw [hbyte, show 256 ^ (k + 1) = 256 * 256 ^ k by ring, Nat.mod_mul]

/-- Only the low `k` bytes are written. -/
theorem le_mod : ∀ k n : ℕ, le k (n % 256 ^ k) = le k n
  | 0, _ => rfl
  | k + 1, n => by
    have hhead : n % 256 ^ (k + 1) % 256 = n % 256 := Nat.mod_mod_of_dvd n (Dvd.intro_left _ (pow_succ 256 k).symm)
    have htail : n % 256 ^ (k + 1) / 256 = n / 256 % 256 ^ k := by
      rw [pow_succ, mul_comm, Nat.mod_mul_right_div_self]
    rw [le, le, hhead, htail, le_mod k]

/-- The first `k` bytes, and the rest; reading past the end is refused. -/
def takeBytes (k : ℕ) (bs : Bytes) : Option (Bytes × Bytes) :=
  if k ≤ bs.length then some (bs.take k, bs.drop k) else none

theorem takeBytes_append {k : ℕ} {bs : Bytes} (h : bs.length = k) (rest : Bytes) :
    takeBytes k (bs ++ rest) = some (bs, rest) := by
  subst h
  simp [takeBytes]

/-- A way to write values, and to read them back. -/
structure Codec (α : Type) where
  enc : α → Bytes
  dec : Bytes → Option (α × Bytes)

namespace Codec

variable {α β : Type}

/-- What is written for `a` is read back, whatever follows. -/
def Reads (c : Codec α) (a : α) : Prop := ∀ rest, c.dec (c.enc a ++ rest) = some (a, rest)

/-- What is read does not depend on what follows it. -/
def Local (c : Codec α) : Prop := ∀ bs a r t, c.dec bs = some (a, r) → c.dec (bs ++ t) = some (a, r ++ t)

end Codec

open Codec

/-! ### Numbers and strings -/

/-- A number of `k` bytes. -/
def raw (k : ℕ) : Codec ℕ where
  enc := le k
  dec bs := (takeBytes k bs).map fun p => (unLe p.1, p.2)

theorem reads_raw {k n : ℕ} (h : n < 256 ^ k) : (raw k).Reads n := by
  intro rest
  have htake := takeBytes_append (length_le k n) rest
  simp only [raw, htake, map_some, unLe_le, Nat.mod_eq_of_lt h]

theorem local_raw (k : ℕ) : (raw k).Local := by
  intro bs a r t h
  obtain ⟨p, hp, heq⟩ := map_eq_some_iff.mp h
  obtain ⟨hle, hcut⟩ := ite_none_right_eq_some.mp hp
  have hle' : k ≤ (bs ++ t).length := le_trans hle (by simp)
  cases hcut
  cases heq
  simp only [raw, takeBytes, if_pos hle', take_append_of_le_length hle, drop_append_of_le_length hle,
    map_some]

/-- A signed number of `k` bytes, in two's complement. -/
def signed (k : ℕ) : Codec ℤ where
  enc z := le k (z % 256 ^ k).toNat
  dec bs := ((raw k).dec bs).map fun p => (if 2 * p.1 < 256 ^ k then (p.1 : ℤ) else p.1 - 256 ^ k, p.2)

theorem reads_signed {k : ℕ} {z : ℤ} (hlow : -(256 ^ k : ℤ) ≤ 2 * z) (hhigh : 2 * z < 256 ^ k) : (signed k).Reads z := by
  intro rest
  have hpos : (0 : ℤ) < 256 ^ k := by positivity
  have hcast : ((z % 256 ^ k).toNat : ℤ) = z % 256 ^ k := Int.toNat_of_nonneg (Int.emod_nonneg z hpos.ne')
  have hlt : (z % 256 ^ k).toNat < 256 ^ k := by
    zify
    rw [hcast]
    exact Int.emod_lt_of_pos z hpos
  have hread := reads_raw hlt rest
  change (raw k).dec (le k (z % 256 ^ k).toNat ++ rest) = _ at hread
  simp only [signed, hread, map_some]
  zify
  rw [hcast]
  by_cases hz : 0 ≤ z
  · rw [Int.emod_eq_of_lt hz (by linarith), if_pos hhigh]
  · have hmod : z % 256 ^ k = z + 256 ^ k := by
      rw [← Int.add_emod_right, Int.emod_eq_of_lt (by linarith) (by linarith)]
    rw [hmod, if_neg (by linarith), add_sub_cancel_right]

/-- A string with its length before it. -/
def blob : Codec Bytes where
  enc b := le 4 b.length ++ b
  dec bs := ((raw 4).dec bs).bind fun p => takeBytes p.1 p.2

theorem reads_blob {b : Bytes} (h : b.length < 256 ^ 4) : blob.Reads b := by
  intro rest
  have hlen := reads_raw h (b ++ rest)
  have hstr : takeBytes b.length (b ++ rest) = some (b, rest) := takeBytes_append rfl rest
  have henc : blob.enc b ++ rest = (raw 4).enc b.length ++ (b ++ rest) := append_assoc _ _ _
  rw [henc]
  simp only [blob, hlen, bind_some, hstr]

/-! ### Lists -/

section list

variable {α : Type} (c : Codec α)

/-- `n` values, one after the other. -/
def decN : ℕ → Bytes → Option (List α × Bytes)
  | 0, bs => some ([], bs)
  | n + 1, bs => (c.dec bs).bind fun p => (decN n p.2).map fun q => (p.1 :: q.1, q.2)

/-- A list with its length before it. -/
def list : Codec (List α) where
  enc l := le 4 l.length ++ l.flatMap c.enc
  dec bs := ((raw 4).dec bs).bind fun p => decN c p.1 p.2

variable {c}

theorem decN_flatMap : ∀ (l : List α) (rest : Bytes), (∀ a ∈ l, c.Reads a) →
    decN c l.length (l.flatMap c.enc ++ rest) = some (l, rest)
  | [], _, _ => rfl
  | a :: l, rest, h => by
    have ha := h a mem_cons_self (l.flatMap c.enc ++ rest)
    have hl := decN_flatMap l rest fun b hb => h b (mem_cons_of_mem a hb)
    simp only [flatMap_cons, append_assoc, length_cons, decN, ha, bind_some, hl, map_some]

theorem decN_eq {l : List α} {n : ℕ} (hn : l.length = n) (rest : Bytes) (h : ∀ a ∈ l, c.Reads a) :
    decN c n (l.flatMap c.enc ++ rest) = some (l, rest) :=
  hn ▸ decN_flatMap l rest h

theorem reads_list {l : List α} (hlen : l.length < 256 ^ 4) (h : ∀ a ∈ l, c.Reads a) : (list c).Reads l := by
  intro rest
  have hn := reads_raw hlen (l.flatMap c.enc ++ rest)
  have hrest := decN_flatMap l rest h
  have henc : (list c).enc l ++ rest = (raw 4).enc l.length ++ (l.flatMap c.enc ++ rest) :=
    append_assoc _ _ _
  rw [henc]
  simp only [list, hn, bind_some, hrest]

theorem local_decN (hc : c.Local) : ∀ (n : ℕ) (bs : Bytes) (l : List α) (r t : Bytes),
    decN c n bs = some (l, r) → decN c n (bs ++ t) = some (l, r ++ t)
  | 0, _, _, _, _, h => by
    cases h
    rfl
  | n + 1, bs, _, _, t, h => by
    obtain ⟨p, hp, h⟩ := bind_eq_some_iff.mp h
    obtain ⟨q, hq, ⟨⟩⟩ := map_eq_some_iff.mp h
    simp only [decN, hc bs p.1 p.2 t hp, bind_some, local_decN hc n p.2 q.1 q.2 t hq, map_some]

theorem local_list (hc : c.Local) : (list c).Local := by
  intro bs l r t h
  obtain ⟨p, hp, h⟩ := bind_eq_some_iff.mp h
  have hn := local_raw 4 bs p.1 p.2 t hp
  simp only [list, hn, bind_some]
  exact local_decN hc p.1 p.2 l r t h

theorem dec_list {l : List α} (h : ∀ a ∈ l, c.Reads a) (rest : Bytes) :
    ∃ r, (list c).dec ((list c).enc l ++ rest) = some (l.take (l.length % 256 ^ 4), r) := by
  have hlen : (l.take (l.length % 256 ^ 4)).length = l.length % 256 ^ 4 :=
    length_take_of_le (Nat.mod_le _ _)
  have hsplit : (list c).enc l = (list c).enc (l.take (l.length % 256 ^ 4)) ++
      (l.drop (l.length % 256 ^ 4)).flatMap c.enc := by
    simp only [list, hlen, le_mod, append_assoc, ← flatMap_append, take_append_drop]
  have hread := reads_list (l := l.take (l.length % 256 ^ 4)) (hlen ▸ Nat.mod_lt _ (by decide))
    fun a ha => h a (mem_of_mem_take ha)
  rw [hsplit, append_assoc]
  exact ⟨_, hread _⟩

/-- A list with its length in `k` bytes before it. -/
def listOf (k : ℕ) (c : Codec α) : Codec (List α) where
  enc l := le k l.length ++ l.flatMap c.enc
  dec bs := ((raw k).dec bs).bind fun p => decN c p.1 p.2

theorem reads_listOf {k : ℕ} {l : List α} (hlen : l.length < 256 ^ k) (h : ∀ a ∈ l, c.Reads a) : (listOf k c).Reads l := by
  intro rest
  have hn := reads_raw hlen (l.flatMap c.enc ++ rest)
  have hrest := decN_flatMap l rest h
  have henc : (listOf k c).enc l ++ rest = (raw k).enc l.length ++ (l.flatMap c.enc ++ rest) := append_assoc _ _ _
  rw [henc]
  simp only [listOf, hn, bind_some, hrest]

/-- Values that all take `n` bytes. -/
theorem length_flatMap_enc {n : ℕ} (h : ∀ a, (c.enc a).length = n) : ∀ l : List α, (l.flatMap c.enc).length = n * l.length
  | [] => rfl
  | a :: l => by
    rw [flatMap_cons, length_append, h, length_flatMap_enc h l, length_cons]
    ring

end list

/-! ### Records -/

/-- Two values, one after the other. -/
def pair {α β : Type} (c : Codec α) (d : Codec β) : Codec (α × β) where
  enc p := c.enc p.1 ++ d.enc p.2
  dec bs := (c.dec bs).bind fun p => (d.dec p.2).map fun q => ((p.1, q.1), q.2)

theorem Codec.Reads.pair {α β : Type} {c : Codec α} {d : Codec β} {a : α} {b : β} (ha : c.Reads a)
    (hb : d.Reads b) : (pair c d).Reads (a, b) := by
  intro rest
  have h1 := ha (d.enc b ++ rest)
  have h2 := hb rest
  simp only [Wire.pair, append_assoc, h1, bind_some, h2, map_some]

theorem Codec.Local.pair {α β : Type} {c : Codec α} {d : Codec β} (hc : c.Local) (hd : d.Local) :
    (pair c d).Local := by
  intro bs p r t h
  obtain ⟨a, ha, h⟩ := bind_eq_some_iff.mp h
  obtain ⟨b, hb, ⟨⟩⟩ := map_eq_some_iff.mp h
  simp only [Wire.pair, hc bs a.1 a.2 t ha, bind_some, hd a.2 b.1 b.2 t hb, map_some]

/-- A value written as another. -/
def via {α β : Type} (c : Codec β) (f : α → β) (g : β → α) : Codec α where
  enc a := c.enc (f a)
  dec bs := (c.dec bs).map fun p => (g p.1, p.2)

theorem Codec.Reads.via {α β : Type} {c : Codec β} {f : α → β} {g : β → α} {a : α} (h : c.Reads (f a))
    (hg : g (f a) = a) : (via c f g).Reads a := by
  intro rest
  have h1 := h rest
  simp only [Wire.via, h1, map_some, hg]

end Wire
end Ceph
