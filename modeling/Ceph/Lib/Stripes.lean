/-
# Striping over objects

A line of bytes is cut into units, the units are dealt out to a row of
objects, and after a number of rows the next row of objects is taken. A byte
then lands at an object and an offset in it. The byte at an offset of an object is
a strictly increasing function of the offset, and the two ways are inverse.

Key definitions: `Stripes`, `object`, `offset`, `byteAt`.
Key theorems: `byteAt_offset`, `object_byteAt`, `offset_byteAt`, `byteAt_strictMono`,
`object_add`, `offset_add`.
-/
import Mathlib.Tactic.Ring

namespace Ceph

/-- Units of `unit` bytes, over `width` objects at a time, with `rows` units in each object. -/
structure Stripes where
  unit : ℕ
  width : ℕ
  rows : ℕ
  unit_pos : 0 < unit
  width_pos : 0 < width
  rows_pos : 0 < rows

namespace Stripes

variable (s : Stripes)

/-- The row of the unit that the byte is in. -/
def row (y : ℕ) : ℕ := y / s.unit / s.width

/-- The object that the byte lands in. -/
def object (y : ℕ) : ℕ := s.row y / s.rows * s.width + y / s.unit % s.width

/-- Its offset there. -/
def offset (y : ℕ) : ℕ := s.row y % s.rows * s.unit + y % s.unit

/-- The byte at an offset of an object. -/
def byteAt (o x : ℕ) : ℕ := ((o / s.width * s.rows + x / s.unit) * s.width + o % s.width) * s.unit + x % s.unit

variable {s} {o x x' y i : ℕ}

theorem offset_lt (s : Stripes) (y : ℕ) : s.offset y < s.rows * s.unit := by
  have hrow := Nat.mod_lt (s.row y) s.rows_pos
  have hunit := Nat.mod_lt y s.unit_pos
  calc s.row y % s.rows * s.unit + y % s.unit
      < s.row y % s.rows * s.unit + s.unit := Nat.add_lt_add_left hunit _
    _ = (s.row y % s.rows + 1) * s.unit := by ring
    _ ≤ s.rows * s.unit := Nat.mul_le_mul_right _ hrow

theorem object_div (s : Stripes) (y : ℕ) : s.object y / s.width = s.row y / s.rows := by
  rw [object, mul_comm, Nat.mul_add_div s.width_pos, Nat.div_eq_of_lt (Nat.mod_lt _ s.width_pos), add_zero]

theorem object_mod (s : Stripes) (y : ℕ) : s.object y % s.width = y / s.unit % s.width := by
  rw [object, mul_comm, Nat.mul_add_mod, Nat.mod_mod]

theorem offset_div (s : Stripes) (y : ℕ) : s.offset y / s.unit = s.row y % s.rows := by
  rw [offset, mul_comm, Nat.mul_add_div s.unit_pos, Nat.div_eq_of_lt (Nat.mod_lt _ s.unit_pos), add_zero]

theorem offset_mod (s : Stripes) (y : ℕ) : s.offset y % s.unit = y % s.unit := by
  rw [offset, mul_comm, Nat.mul_add_mod, Nat.mod_mod]

theorem byteAt_offset (s : Stripes) (y : ℕ) : s.byteAt (s.object y) (s.offset y) = y := by
  rw [byteAt, object_div, object_mod, offset_div, offset_mod, Nat.div_add_mod', row, Nat.div_add_mod', Nat.div_add_mod']

theorem byteAt_div (s : Stripes) (o x : ℕ) :
    s.byteAt o x / s.unit = (o / s.width * s.rows + x / s.unit) * s.width + o % s.width := by
  rw [byteAt, mul_comm _ s.unit, Nat.mul_add_div s.unit_pos, Nat.div_eq_of_lt (Nat.mod_lt _ s.unit_pos), add_zero]

theorem row_byteAt (s : Stripes) (o x : ℕ) : s.row (s.byteAt o x) = o / s.width * s.rows + x / s.unit := by
  rw [row, byteAt_div, mul_comm _ s.width, Nat.mul_add_div s.width_pos, Nat.div_eq_of_lt (Nat.mod_lt _ s.width_pos),
    add_zero]

theorem object_byteAt (hx : x < s.rows * s.unit) : s.object (s.byteAt o x) = o := by
  have hrow : x / s.unit < s.rows := Nat.div_lt_of_lt_mul (mul_comm s.unit s.rows ▸ hx)
  rw [object, row_byteAt, byteAt_div, mul_comm (o / s.width), Nat.mul_add_div s.rows_pos, Nat.div_eq_of_lt hrow,
    add_zero, mul_comm _ s.width, mul_comm _ s.width, Nat.mul_add_mod, Nat.mod_mod, Nat.div_add_mod]

theorem offset_byteAt (hx : x < s.rows * s.unit) : s.offset (s.byteAt o x) = x := by
  have hrow : x / s.unit < s.rows := Nat.div_lt_of_lt_mul (mul_comm s.unit s.rows ▸ hx)
  have hmod : s.byteAt o x % s.unit = x % s.unit := by rw [byteAt, mul_comm _ s.unit, Nat.mul_add_mod, Nat.mod_mod]
  rw [offset, row_byteAt, hmod, mul_comm (o / s.width), Nat.mul_add_mod, Nat.mod_eq_of_lt hrow, Nat.div_add_mod']

theorem place_inj (ho : s.object x = s.object y) (hx : s.offset x = s.offset y) : x = y := by
  rw [← byteAt_offset s x, ho, hx, byteAt_offset]

theorem byteAt_strictMono (s : Stripes) (o : ℕ) : StrictMono (s.byteAt o) := by
  intro x x' hlt
  unfold byteAt
  rcases (Nat.div_le_div_right hlt.le : x / s.unit ≤ x' / s.unit).eq_or_lt with heq | hrow
  · have hx := Nat.div_add_mod x s.unit
    have hx' := Nat.div_add_mod x' s.unit
    rw [heq] at hx ⊢
    omega
  · have hunit := Nat.mod_lt x s.unit_pos
    calc ((o / s.width * s.rows + x / s.unit) * s.width + o % s.width) * s.unit + x % s.unit
        < ((o / s.width * s.rows + x / s.unit) * s.width + o % s.width) * s.unit + s.unit := Nat.add_lt_add_left hunit _
      _ = ((o / s.width * s.rows + x / s.unit) * s.width + o % s.width + 1) * s.unit := by ring
      _ ≤ ((o / s.width * s.rows + x' / s.unit) * s.width + o % s.width) * s.unit := by
        refine Nat.mul_le_mul_right _ ?_
        have hstep : (o / s.width * s.rows + x / s.unit + 1) * s.width ≤ (o / s.width * s.rows + x' / s.unit) * s.width :=
          Nat.mul_le_mul_right _ (by omega)
        have hwidth := s.width_pos
        rw [add_one_mul] at hstep
        omega
      _ ≤ _ := Nat.le_add_right _ _

/-! ### Inside a unit -/

theorem add_div_unit (h : y % s.unit + i < s.unit) : (y + i) / s.unit = y / s.unit := by
  have hy := Nat.div_add_mod y s.unit
  rw [← hy, add_assoc, Nat.mul_add_div s.unit_pos, Nat.mul_add_div s.unit_pos, Nat.div_eq_of_lt h,
    Nat.div_eq_of_lt (Nat.mod_lt _ s.unit_pos)]

theorem add_mod_unit (h : y % s.unit + i < s.unit) : (y + i) % s.unit = y % s.unit + i := by
  rw [← Nat.mod_add_mod, Nat.mod_eq_of_lt h]

theorem object_add (h : y % s.unit + i < s.unit) : s.object (y + i) = s.object y := by
  rw [object, object, row, row, add_div_unit h]

theorem offset_add (h : y % s.unit + i < s.unit) : s.offset (y + i) = s.offset y + i := by
  rw [offset, offset, row, row, add_div_unit h, add_mod_unit h, add_assoc]

end Stripes
end Ceph
