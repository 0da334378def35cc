/-
# Links between numbered parties

A link from `i` to `j` is the queue of the messages sent and not yet
received, oldest first. `post` sends a message, `take` removes the one at a
place (place 0 for a FIFO link; any place for one that reorders).

Key definitions: `Links`, `Links.post`, `Links.postAll`, `Links.broadcast`,
`Links.take`.
Key theorems: `Links.mem_postAll`, `Links.take_sublist`.
-/
import Mathlib.Data.Finset.Basic

namespace Ceph

open List

/-- The messages in flight on each link, oldest first. -/
abbrev Links (μ : Type) := ℕ → ℕ → List μ

namespace Links

variable {μ : Type}

/-- No message in flight. -/
def empty : Links μ := fun _ _ => []

/-- `i` sends `m` to `j`. -/
def post (l : Links μ) (i j : ℕ) (m : μ) : Links μ :=
  fun a b => if a = i ∧ b = j then l a b ++ [m] else l a b

/-- `i` sends the messages `ms`, each to its receiver, in order. -/
def postAll (l : Links μ) (i : ℕ) (ms : List (ℕ × μ)) : Links μ :=
  ms.foldl (fun l p => l.post i p.1 p.2) l

/-- `i` sends `m` to each of `js`. -/
def broadcast (l : Links μ) (i : ℕ) (js : Finset ℕ) (m : μ) : Links μ :=
  fun a b => if a = i ∧ b ∈ js then l a b ++ [m] else l a b

/-- The `k`-th message from `i` to `j` leaves the link. -/
def take (l : Links μ) (i j k : ℕ) : Links μ :=
  fun a b => if a = i ∧ b = j then (l a b).eraseIdx k else l a b

@[simp] theorem post_self (l : Links μ) (i j : ℕ) (m : μ) : l.post i j m i j = l i j ++ [m] := by
  simp [post]

variable {i j : ℕ}

theorem post_ne (l : Links μ) {a b : ℕ} (m : μ) (h : ¬ (a = i ∧ b = j)) :
    l.post i j m a b = l a b := by
  simp [post, h]

variable {m : μ} {l : Links μ}

theorem mem_post {a b : ℕ} {m' : μ} :
    m' ∈ l.post i j m a b ↔ m' ∈ l a b ∨ (a = i ∧ b = j ∧ m' = m) := by
  unfold post
  split_ifs with h
  · simp [h]
  · constructor
    · exact .inl
    · rintro (hm | ⟨ha, hb, -⟩)
      · exact hm
      · exact absurd ⟨ha, hb⟩ h

/-- A queue after the sends is the old queue and what was sent to that
receiver. -/
theorem postAll_apply (l : Links μ) (i : ℕ) : ∀ (ms : List (ℕ × μ)) (a b : ℕ), l.postAll i ms a b =
    if a = i then l a b ++ (ms.filter fun p => p.1 = b).map Prod.snd else l a b
  | [], a, b => by simp [postAll]
  | p :: ms, a, b => by
    have ih := postAll_apply (l.post i p.1 p.2) i ms a b
    simp only [postAll, foldl_cons] at ih ⊢
    rw [ih]
    by_cases ha : a = i
    · subst ha
      by_cases hb : p.1 = b
      · subst hb; simp
      · simp [post_ne l p.2 (a := a) (b := b) (i := a) (j := p.1) (fun h => hb h.2.symm), hb]
    · simp [ha, post_ne l p.2 (fun h => ha h.1)]

theorem mem_postAll {ms : List (ℕ × μ)} {a b : ℕ} :
    m ∈ l.postAll i ms a b ↔ m ∈ l a b ∨ (a = i ∧ (b, m) ∈ ms) := by
  rw [postAll_apply]
  split_ifs with h
  · simp only [mem_append, List.mem_map, mem_filter, decide_eq_true_eq, h, true_and]
    constructor
    · rintro (hm | ⟨⟨x, y⟩, ⟨hp, rfl⟩, rfl⟩)
      · exact .inl hm
      · exact .inr hp
    · rintro (hm | hp)
      · exact .inl hm
      · exact .inr ⟨_, ⟨hp, rfl⟩, rfl⟩
  · simp [h]

theorem broadcast_empty (l : Links μ) (i : ℕ) (m : μ) : l.broadcast i ∅ m = l := by
  funext a b
  simp [broadcast]

theorem take_ne (l : Links μ) {k a b : ℕ} (h : ¬ (a = i ∧ b = j)) : l.take i j k a b = l a b := by
  simp [take, h]

theorem take_head {ms : List μ} (h : l i j = m :: ms) : l.take i j 0 i j = ms := by
  simp [take, h]

theorem take_sublist (l : Links μ) (i j k a b : ℕ) : (l.take i j k a b).Sublist (l a b) := by
  unfold take
  split_ifs
  · exact eraseIdx_sublist _ _
  · exact .refl _

theorem mem_take {k a b : ℕ} (h : m ∈ l.take i j k a b) : m ∈ l a b :=
  (take_sublist l i j k a b).subset h

end Links
end Ceph
