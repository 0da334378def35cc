/-
# Frames in a stream of bytes

Strings are written one after the other, each with its length in four bytes
before it (`Wire.blob`). A reader at a frame's start tells from what it has
whether the frame is complete; `whole` takes the complete frames off a
stream, and what is left is `Short`.

Key definitions: `frames`, `Short`, `whole`, `index`.
Key theorems: `frames_drop`, `short_frame_iff`, `whole_spec`, `index_take`.
-/
import Ceph.Lib.Wire
import Mathlib.Data.List.TakeDrop

namespace Ceph
namespace Wire

open List Option

/-- The strings, framed. -/
def frames (xs : List Bytes) : Bytes := xs.flatMap blob.enc

/-- The number that the first four bytes stand for. -/
def sizeField (b : Bytes) : ℕ := unLe (b.take 4)

/-- There is no complete frame at the head of `b`. -/
def Short (b : Bytes) : Prop := b.length < 4 ∨ b.length < 4 + sizeField b

instance (b : Bytes) : Decidable (Short b) := inferInstanceAs (Decidable (_ ∨ _))

/-- The complete frames at the head of `b`, at most `n` of them, and the rest. -/
def split : ℕ → Bytes → List Bytes × Bytes
  | 0, b => ([], b)
  | n + 1, b =>
    match blob.dec b with
    | none => ([], b)
    | some (x, rest) => (x :: (split n rest).1, (split n rest).2)

/-- The complete frames at the head of `b`, and the rest. -/
def whole (b : Bytes) : List Bytes × Bytes := split b.length b

/-- The number of frames that lie before the position `p`. -/
def index : List Bytes → ℕ → ℕ
  | [], _ => 0
  | x :: xs, p => if p < 4 + x.length then 0 else 1 + index xs (p - (4 + x.length))

@[simp] theorem length_frame (x : Bytes) : (blob.enc x).length = 4 + x.length := by
  simp [blob]

@[simp] theorem frames_nil : frames [] = [] := rfl

@[simp] theorem frames_cons (x : Bytes) (xs : List Bytes) : frames (x :: xs) = blob.enc x ++ frames xs := rfl

@[simp] theorem frames_append (xs ys : List Bytes) : frames (xs ++ ys) = frames xs ++ frames ys := by
  simp [frames]

/-- The frames from the `n`-th on. -/
theorem frames_drop (xs : List Bytes) (n : ℕ) :
    frames xs = frames (xs.take n) ++ frames (xs.drop n) := by
  rw [← frames_append, take_append_drop]

theorem sizeField_frame {x : Bytes} (hx : x.length < 2 ^ 32) {rest : Bytes} {k : ℕ} (hk : 4 ≤ k) :
    sizeField ((blob.enc x ++ rest).take k) = x.length := by
  rw [sizeField, take_take, min_eq_left hk]
  have htake : (blob.enc x ++ rest).take 4 = le 4 x.length := by
    exact take_left' (length_le 4 _)
  rw [htake, unLe_le, Nat.mod_eq_of_lt (by simpa using hx)]

/-- The first `k` bytes of a frame are short exactly if they are fewer than the frame. -/
theorem short_frame_iff {x : Bytes} (hx : x.length < 2 ^ 32) {rest : Bytes} {k : ℕ}
    (hk : k ≤ (blob.enc x ++ rest).length) :
    Short ((blob.enc x ++ rest).take k) ↔ k < 4 + x.length := by
  have hlen : ((blob.enc x ++ rest).take k).length = k := length_take_of_le hk
  unfold Short
  by_cases h4 : 4 ≤ k
  · rw [sizeField_frame hx h4]
    omega
  · omega

theorem le_unLe : ∀ b : Bytes, le b.length (unLe b) = b
  | [] => rfl
  | x :: b => by
    have hx : x.toNat < 256 := x.toNat_lt
    have hmod : (x.toNat + 256 * unLe b) % 256 = x.toNat := by omega
    have hdiv : (x.toNat + 256 * unLe b) / 256 = unLe b := by omega
    simp only [length_cons, unLe, le, hmod, hdiv, le_unLe b]
    rw [UInt8.ofNat_toNat]

theorem dec_blob_eq {b x rest : Bytes} (h : blob.dec b = some (x, rest)) : b = blob.enc x ++ rest := by
  simp only [blob, raw, takeBytes] at h
  by_cases h4 : 4 ≤ b.length
  · rw [if_pos h4] at h
    simp only [map_some, bind_some, ite_none_right_eq_some, some.injEq, Prod.mk.injEq] at h
    obtain ⟨hle, rfl, rfl⟩ := h
    have hlen : ((b.drop 4).take (unLe (b.take 4))).length = unLe (b.take 4) := length_take_of_le hle
    have hfour : (b.take 4).length = 4 := length_take_of_le h4
    have hfield := le_unLe (b.take 4)
    rw [hfour] at hfield
    simp only [blob, hlen, hfield, List.append_assoc, take_append_drop]
  · rw [if_neg h4] at h
    simp at h

theorem dec_blob_none {b : Bytes} (h : blob.dec b = none) : Short b := by
  simp only [blob, raw, takeBytes] at h
  by_cases h4 : 4 ≤ b.length
  · rw [if_pos h4] at h
    simp only [map_some, bind_some] at h
    refine .inr ?_
    by_contra hge
    rw [if_pos (by simp only [length_drop, sizeField] at hge ⊢; omega)] at h
    simp at h
  · exact .inl (not_le.mp h4)

theorem split_spec : ∀ (n : ℕ) (b : Bytes), b.length ≤ n →
    b = frames (split n b).1 ++ (split n b).2 ∧ Short (split n b).2
  | 0, b, h => by
    have hb := length_eq_zero_iff.mp (Nat.le_zero.mp h)
    subst hb
    exact ⟨rfl, .inl (by decide)⟩
  | n + 1, b, h => by
    unfold split
    split
    · next hd => exact ⟨rfl, dec_blob_none hd⟩
    · next x rest hd =>
      have heq := dec_blob_eq hd
      have hlen : rest.length ≤ n := by
        have := congrArg List.length heq
        rw [List.length_append, length_frame] at this
        omega
      obtain ⟨h1, h2⟩ := split_spec n rest hlen
      refine ⟨?_, h2⟩
      rw [frames_cons, List.append_assoc, ← h1]
      exact heq

/-- **What `whole` finds** are the complete frames. -/
theorem whole_spec (b : Bytes) : b = frames (whole b).1 ++ (whole b).2 ∧ Short (whole b).2 :=
  split_spec b.length b le_rfl

/-- The start of the `k`-th frame has `k` frames before it. -/
theorem index_take : ∀ (xs : List Bytes) (k : ℕ), k ≤ xs.length →
    index xs (frames (xs.take k)).length = k
  | [], k, h => by simp_all [index]
  | x :: xs, 0, _ => by simp [index]
  | x :: xs, k + 1, h => by
    have hrec := index_take xs k (Nat.le_of_succ_le_succ h)
    simp only [take_succ_cons, frames_cons, List.length_append, length_frame, index]
    rw [if_neg (by omega), Nat.add_sub_cancel_left, hrec, Nat.add_comm]

end Wire
end Ceph
