/-
# Computations that may fail

A computation gives a value or an error, and some errors are not to be. It is safe for a condition on values
if it fails with none of these errors, and the value, if there is one, meets the condition.

Key definitions: `Safe`, `need`.
Key theorems: `Safe.bind`, `Safe.map`, `safe_need`.
-/
import Mathlib.Logic.Basic

namespace Ceph
namespace Checked

variable {ε α β : Type} {bad : ε → Prop} {P : α → Prop} {Q : β → Prop} {x : Except ε α} {f : α → Except ε β}
  {o : Option α} {e : ε} {a : α}

/-- The value is as `P` says; an error is not `bad`. -/
def Safe (bad : ε → Prop) (P : α → Prop) : Except ε α → Prop
  | .ok a => P a
  | .error e => ¬ bad e

/-- A value that has to be there. -/
def need (e : ε) : Option α → Except ε α
  | some a => .ok a
  | none => .error e

theorem safe_ok (h : P a) : Safe bad P (.ok a : Except ε α) := h

theorem Safe.error (h : Safe bad P x) (hx : x = .error e) : ¬ bad e := by
  rw [hx] at h
  exact h

theorem Safe.value (h : Safe bad P x) (hx : x = .ok a) : P a := by
  rw [hx] at h
  exact h

theorem safe_need (he : ¬ bad e) (h : ∀ a, o = some a → P a) : Safe bad P (need e o) := by
  cases o with
  | none => exact he
  | some a => exact h a rfl

/-- **One computation after the other.** -/
theorem Safe.bind (h : Safe bad P x) (hf : ∀ a, P a → Safe bad Q (f a)) : Safe bad Q (x.bind f) := by
  cases x with
  | error e => exact h
  | ok a => exact hf a h

theorem Safe.map {g : α → β} (h : Safe bad P x) (hg : ∀ a, P a → Q (g a)) : Safe bad Q (x.map g) := by
  cases x with
  | error e => exact h
  | ok a => exact hg a h

end Checked
end Ceph
