/-
# Voting in numbered ballots

Acceptors vote for values in slots, each vote in a numbered ballot; an
acceptor that holds number `h` votes in no ballot below `h` any more. A value
is chosen in a slot once a quorum has voted for it in one ballot. A proposal
is safe in ballot `b` if in every lower ballot some quorum is out of the way:
it will not vote there any more, and has voted for nothing else. This is what
makes the chosen value of a slot unique, whoever proposes, and safety never
goes away as the votes grow.

Key definitions: `Ballots`, `Chosen`, `Safe`, `Free`, `Grows`.
Key theorems: `Safe.grows`, `Free.grows`, `safe_of_max` (the recovery rule of
Paxos), `free_of_below`, `chosen_unique`.
-/
import Mathlib.Data.Finset.Basic

namespace Ceph

/-- Votes of acceptors `α` for values `β`: `vote a n c w` if `a` has voted for
`w` in slot `n` and ballot `c`; `held a` is the number `a` holds. -/
structure Ballots (α β : Type) where
  vote : α → ℕ → ℕ → β → Prop
  held : α → ℕ

namespace Ballots

variable {α β : Type} {maj : Finset α → Prop} {B B' : Ballots α β} {V b p u : ℕ} {w w' : β}

/-- A quorum has voted for `w` in one ballot of slot `V`. -/
def Chosen (maj : Finset α → Prop) (B : Ballots α β) (V : ℕ) (w : β) : Prop :=
  ∃ c Q, maj Q ∧ ∀ a ∈ Q, B.vote a V c w

/-- In every ballot of slot `V` below `b`, a quorum is done and has voted for
nothing but `w`. -/
def Safe (maj : Finset α → Prop) (B : Ballots α β) (V b : ℕ) (w : β) : Prop :=
  ∀ c < b, ∃ Q, maj Q ∧ ∀ a ∈ Q, c < B.held a ∧ ∀ w', B.vote a V c w' → w' = w

/-- In every ballot of slot `V` below `b`, a quorum is done and has not voted. -/
def Free (maj : Finset α → Prop) (B : Ballots α β) (V b : ℕ) : Prop :=
  ∀ c < b, ∃ Q, maj Q ∧ ∀ a ∈ Q, c < B.held a ∧ ∀ w', ¬ B.vote a V c w'

/-- Votes are added in ballots that the voter may still vote in, and the numbers
held go up. -/
structure Grows (B B' : Ballots α β) : Prop where
  held : ∀ a, B.held a ≤ B'.held a
  kept : ∀ {a V c w}, B.vote a V c w → B'.vote a V c w
  added : ∀ {a V c w}, B'.vote a V c w → B.vote a V c w ∨ B.held a ≤ c

theorem Grows.refl (B : Ballots α β) : Grows B B := ⟨fun _ => le_rfl, fun h => h, .inl⟩

theorem Grows.trans {B'' : Ballots α β} (h : Grows B B') (h' : Grows B' B'') : Grows B B'' := by
  refine ⟨fun a => (h.held a).trans (h'.held a), fun hv => h'.kept (h.kept hv), ?_⟩
  intro a V c w hv
  rcases h'.added hv with hv | hle
  · exact h.added hv
  · exact .inr ((h.held a).trans hle)

theorem Grows.vote_iff (h : Grows B B') {a : α} {c : ℕ} (hc : c < B.held a) :
    B'.vote a V c w ↔ B.vote a V c w := by
  constructor
  · intro hv
    rcases h.added hv with hv | hle
    · exact hv
    · exact absurd hc (not_lt.mpr hle)
  · exact h.kept

theorem Chosen.grows (hc : Chosen maj B V w) (h : Grows B B') : Chosen maj B' V w := by
  obtain ⟨c, Q, hQ, hv⟩ := hc
  exact ⟨c, Q, hQ, fun a ha => h.kept (hv a ha)⟩

theorem Safe.grows (hs : Safe maj B V b w) (h : Grows B B') : Safe maj B' V b w := by
  intro c hc
  obtain ⟨Q, hQ, hall⟩ := hs c hc
  refine ⟨Q, hQ, fun a ha => ?_⟩
  obtain ⟨hlt, hw⟩ := hall a ha
  exact ⟨hlt.trans_le (h.held a), fun w' hv => hw w' ((h.vote_iff hlt).mp hv)⟩

theorem Free.grows (hf : Free maj B V b) (h : Grows B B') : Free maj B' V b := by
  intro c hc
  obtain ⟨Q, hQ, hall⟩ := hf c hc
  refine ⟨Q, hQ, fun a ha => ?_⟩
  obtain ⟨hlt, hw⟩ := hall a ha
  exact ⟨hlt.trans_le (h.held a), fun w' hv => hw w' ((h.vote_iff hlt).mp hv)⟩

theorem Free.safe (hf : Free maj B V b) (w : β) : Safe maj B V b w := by
  intro c hc
  obtain ⟨Q, hQ, hall⟩ := hf c hc
  exact ⟨Q, hQ, fun a ha => ⟨(hall a ha).1, fun w' hv => absurd hv ((hall a ha).2 w')⟩⟩

/-- **The recovery rule.** A quorum holds `p`, and its votes below `p` are in
ballots up to `u`; the value of ballot `u`, safe there, is then safe in `p`. -/
theorem safe_of_max {Q : Finset α} (hQ : maj Q) (hheld : ∀ a ∈ Q, p ≤ B.held a)
    (hmax : ∀ a ∈ Q, ∀ c < p, ∀ w', B.vote a V c w' → c ≤ u) (hu : Safe maj B V u w)
    (huniq : ∀ a w', B.vote a V u w' → w' = w) : Safe maj B V p w := by
  intro c hc
  rcases lt_trichotomy c u with hlt | rfl | hgt
  · exact hu c hlt
  · exact ⟨Q, hQ, fun a ha => ⟨hc.trans_le (hheld a ha), huniq a⟩⟩
  · refine ⟨Q, hQ, fun a ha => ⟨hc.trans_le (hheld a ha), fun w' hv => ?_⟩⟩
    exact absurd (hmax a ha c hc w' hv) (not_le.mpr hgt)

/-- A slot that is free below `u`, and without votes of a quorum that holds `p`
from `u` on, is free below `p`. -/
theorem free_of_below {Q : Finset α} (hQ : maj Q) (hheld : ∀ a ∈ Q, p ≤ B.held a)
    (hnone : ∀ a ∈ Q, ∀ c, u ≤ c → c < p → ∀ w', ¬ B.vote a V c w') (hu : Free maj B V u) :
    Free maj B V p := by
  intro c hc
  rcases lt_or_ge c u with hlt | hge
  · exact hu c hlt
  · exact ⟨Q, hQ, fun a ha => ⟨hc.trans_le (hheld a ha), hnone a ha c hge hc⟩⟩

/-- **One chosen value a slot.** If every vote is for a value that is safe in its
ballot, and a ballot has one value for each slot, then so does the slot. -/
theorem chosen_unique (hmeet : ∀ Q Q', maj Q → maj Q' → ∃ a ∈ Q, a ∈ Q')
    (hsafe : ∀ {a V c w}, B.vote a V c w → Safe maj B V c w)
    (huniq : ∀ {a a' V c w w'}, B.vote a V c w → B.vote a' V c w' → w = w')
    (h : Chosen maj B V w) (h' : Chosen maj B V w') : w = w' := by
  -- the value of the higher ballot is safe there, so a shared voter has voted for it in the lower
  have lower : ∀ {c c' : ℕ} {Q Q' : Finset α} {x y : β}, c < c' → maj Q → maj Q' →
      (∀ a ∈ Q, B.vote a V c x) → (∀ a ∈ Q', B.vote a V c' y) → x = y := by
    intro c c' Q Q' x y hlt hQ hQ' hx hy
    obtain ⟨a, ha, _⟩ := hmeet Q' Q' hQ' hQ'
    obtain ⟨R, hR, hall⟩ := hsafe (hy a ha) c hlt
    obtain ⟨z, hzQ, hzR⟩ := hmeet Q R hQ hR
    exact (hall z hzR).2 x (hx z hzQ)
  obtain ⟨c, Q, hQ, hw⟩ := h
  obtain ⟨c', Q', hQ', hw'⟩ := h'
  rcases lt_trichotomy c c' with hlt | rfl | hgt
  · exact lower hlt hQ hQ' hw hw'
  · obtain ⟨a, ha, _⟩ := hmeet Q Q hQ hQ
    obtain ⟨a', ha', _⟩ := hmeet Q' Q' hQ' hQ'
    exact huniq (hw a ha) (hw' a' ha')
  · exact (lower hgt hQ' hQ hw' hw).symm

end Ballots
end Ceph
