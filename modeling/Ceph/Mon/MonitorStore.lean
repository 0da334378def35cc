/-
# The monitor's store

`MonitorStore` of `mon/MonitorStore.cc`: a value is a file. It is written to a
second file, `.new`, which is then renamed; a crash leaves that file with
some part of what was being written. Integers are stored as decimal text.

`put_int` and `put_bl_ss` do not cut the `.new` file, so a longer one of an
earlier crash shows behind what they write; `get_int` reads the text with
`atoi`, which has 32 bits; `get_bl_ss` keeps the size of the file in 32 bits.
`sprintf` into a buffer that is too small is undefined, here `none`. What `atoi`
returns for a number that is not an `int`, and memory that was never written,
are arbitrary.
-/
import Ceph.Lib.Decimal

namespace Ceph
namespace Mon
namespace MonitorStore

open List Option
open Wire (Bytes)

/-- The files under the base directory. -/
abbrev Files := Bytes → Option Bytes

/-! ### The C library -/

/-- `sprintf` into a buffer of `n` characters. -/
def sprintf (n : ℕ) (s : Bytes) : Option Bytes := if s.length < n then some s else none

/-- `%ld` of a 64-bit number. -/
def ld (v : UInt64) : Bytes :=
  if v.toNat < 2 ^ 63 then Decimal.text v.toNat else 45 :: Decimal.text (2 ^ 64 - v.toNat)

/-- `fgets` into a buffer of `n` characters; `none` at the end of the file. -/
def fgets (n : ℕ) (f : Bytes) : Option Bytes :=
  if f = [] then none else some ((f.take (f.findIdx (· = 10) + 1)).take (n - 1))

def isSpace (b : UInt8) : Bool := b = 32 ∨ (9 ≤ b.toNat ∧ b.toNat ≤ 13)

/-- The number at the head of a text, before the limits of a type. -/
def strtol (s : Bytes) : ℤ :=
  match s.dropWhile isSpace with
  | 45 :: r => -(Decimal.value r : ℤ)
  | 43 :: r => Decimal.value r
  | r => Decimal.value r

/-- `atoi`; `wild` is what it returns where that is undefined. -/
def atoi (wild : Bytes → BitVec 32) (s : Bytes) : ℤ :=
  if -2 ^ 31 ≤ strtol s ∧ strtol s < 2 ^ 31 then strtol s else (wild s).toInt

/-- An `int` as a `version_t`. -/
def ofInt (i : ℤ) : UInt64 := UInt64.ofNat (i % 2 ^ 64).toNat

/-- A size as an `__int32_t`. -/
def int32 (n : ℕ) : ℤ := (BitVec.ofNat 32 n).toInt

/-! ### Files -/

/-- The name of a file: `dir/a` or `dir/a/b`. -/
def fn (dir a : Bytes) (b : Option Bytes) : Option Bytes :=
  sprintf 200 (dir ++ [47] ++ a ++ (b.map ([47] ++ ·)).getD [])

/-- `.new` -/
def dotNew : Bytes := [46, 110, 101, 119]

/-- The name of the second file. -/
def tfn (f : Bytes) : Option Bytes := sprintf 200 (f ++ dotNew)

/-- A file after `s` is written at its start. -/
def overlay (old : Option Bytes) (s : Bytes) : Bytes := s ++ (old.getD []).drop s.length

/-- The files after `s` is written to `t` and renamed to `f`. -/
def replace (fs : Files) (f t s : Bytes) : Files :=
  Function.update (Function.update fs t none) f (some (overlay (fs t) s))

/-- What the two `put`s have in common. -/
def put (dir a : Bytes) (b : Option Bytes) (s : Bytes) (fs : Files) : Option Files :=
  (fn dir a b).bind fun f => (tfn f).map fun t => replace fs f t s

/-- A `put` is cut short when `k` bytes are written. -/
def crashedPut (dir a : Bytes) (b : Option Bytes) (s : Bytes) (k : ℕ) (fs : Files) : Option Files :=
  (fn dir a b).bind fun f => (tfn f).map fun t => Function.update fs t (some (overlay (fs t) (s.take k)))

/-! ### Integers -/

/-- `put_int`. -/
def putInt (dir : Bytes) (v : UInt64) (a : Bytes) (b : Option Bytes) (fs : Files) : Option Files :=
  (sprintf 30 (ld v ++ [10])).bind fun vs => put dir a b vs fs

/-- `get_int`; `stack` is what `buf` holds before. -/
def getInt (wild : Bytes → BitVec 32) (stack : Bytes) (dir a : Bytes) (b : Option Bytes) (fs : Files) :
    Option UInt64 :=
  (fn dir a b).map fun f =>
    match fs f with
    | none => 0
    | some s => ofInt (atoi wild ((fgets 20 s).getD stack))

/-! ### Buffers -/

/-- `put_bl_ss`. -/
def putBlSs (dir : Bytes) (bl : Bytes) (a : Bytes) (b : Option Bytes) (fs : Files) : Option Files :=
  put dir a b bl fs

/-- What `get_bl_ss` reads from a file; `fresh` is what new memory holds. -/
def readBl (fresh : ℕ → UInt8) (s : Bytes) : Bytes :=
  let len := int32 s.length
  if 0 < len then s.take len.toNat else (List.range (len % 2 ^ 32).toNat).map fresh

/-- `get_bl_ss`; `some none` if there is no such file. -/
def getBlSs (fresh : ℕ → UInt8) (dir a : Bytes) (b : Option Bytes) (fs : Files) : Option (Option Bytes) :=
  (fn dir a b).map fun f => (fs f).map (readBl fresh)

/-- The name of a version: `char bs[20]`. -/
def bs (v : UInt64) : Option Bytes := sprintf 20 (Decimal.text v.toNat)

/-- The second part of a name: a string, if any, or a version. -/
inductive Key
  | ss (b : Option Bytes)
  | sn (v : UInt64)

def Key.name : Key → Option (Option Bytes)
  | .ss b => some b
  | .sn v => (bs v).map some

/-- `put_bl_ss` and `put_bl_sn`. -/
def putBl (dir : Bytes) (bl : Bytes) (a : Bytes) (key : Key) (fs : Files) : Option Files :=
  key.name.bind fun b => putBlSs dir bl a b fs

/-- `get_bl_ss` and `get_bl_sn`. -/
def getBl (fresh : ℕ → UInt8) (dir a : Bytes) (key : Key) (fs : Files) : Option (Option Bytes) :=
  key.name.bind fun b => getBlSs fresh dir a b fs

/-- A `put_bl_ss` or `put_bl_sn` is cut short. -/
def crashedPutBl (dir : Bytes) (bl : Bytes) (a : Bytes) (key : Key) (k : ℕ) (fs : Files) : Option Files :=
  key.name.bind fun b => crashedPut dir a b bl k fs

/-! ### Names -/

/-- The names of a file, and of its second file. -/
def names (dir a : Bytes) (b : Option Bytes) : Option (Bytes × Bytes) :=
  (fn dir a b).bind fun f => (tfn f).map (f, ·)

variable {dir a : Bytes} {b : Option Bytes} {fs : Files}

theorem names_eq_some {f t : Bytes} : names dir a b = some (f, t) ↔ fn dir a b = some f ∧ tfn f = some t := by
  simp only [names, bind_eq_some_iff, map_eq_some_iff, Prod.mk.injEq]
  constructor
  · rintro ⟨f', hf, t', ht, rfl, rfl⟩
    exact ⟨hf, ht⟩
  · rintro ⟨hf, ht⟩
    exact ⟨f, hf, t, ht, rfl, rfl⟩

theorem put_eq (s : Bytes) : put dir a b s fs = (names dir a b).map fun n => replace fs n.1 n.2 s := by
  unfold put names
  cases fn dir a b with
  | none => rfl
  | some f =>
    simp only [bind_some]
    cases tfn f with
    | none => rfl
    | some t => rfl

theorem tfn_ne {f t : Bytes} (h : tfn f = some t) : f ≠ t := by
  obtain ⟨-, ⟨⟩⟩ := ite_none_right_eq_some.mp h
  intro he
  have := congrArg List.length he
  simp [dotNew] at this

theorem replace_get {f t : Bytes} (s : Bytes) : replace fs f t s f = some (overlay (fs t) s) := by
  rw [replace, Function.update_self]

/-! ### Integers come back -/

/-- The numbers that an `int` can hold, as a `version_t`. -/
def IsInt (v : UInt64) : Prop := v.toNat < 2 ^ 31 ∨ 2 ^ 64 - 2 ^ 31 ≤ v.toNat

instance (v : UInt64) : Decidable (IsInt v) := inferInstanceAs (Decidable (_ ∨ _))

/-- A `version_t` read as a `long`. -/
def signed (v : UInt64) : ℤ := if v.toNat < 2 ^ 63 then v.toNat else v.toNat - 2 ^ 64

theorem ofInt_signed (v : UInt64) : ofInt (signed v) = v := by
  have hv := v.toNat_lt
  have hmod : (signed v % 2 ^ 64).toNat = v.toNat := by
    unfold signed
    split_ifs
    · omega
    · omega
  rw [ofInt, hmod, UInt64.ofNat_toNat]

theorem isInt_ofInt {i : ℤ} (h1 : -2 ^ 31 ≤ i) (h2 : i < 2 ^ 31) : IsInt (ofInt i) := by
  have hlt : (i % 2 ^ 64).toNat < 2 ^ 64 := by omega
  unfold IsInt ofInt
  rw [UInt64.toNat_ofNat_of_lt' hlt]
  omega

theorem atoi_bounds (wild : Bytes → BitVec 32) (s : Bytes) : -2 ^ 31 ≤ atoi wild s ∧ atoi wild s < 2 ^ 31 := by
  unfold atoi
  split_ifs with h
  · exact h
  · have h1 := BitVec.le_toInt (wild s)
    have h2 := BitVec.toInt_lt (x := wild s)
    exact ⟨h1, h2⟩

variable {stack : Bytes} {v : UInt64} {wild : Bytes → BitVec 32}

/-- Whatever is in the file, `get_int` returns what an `int` can hold. -/
theorem isInt_getInt (h : getInt wild stack dir a b fs = some v) : IsInt v := by
  obtain ⟨f, -, h⟩ := map_eq_some_iff.mp h
  cases hs : fs f with
  | none =>
    rw [hs] at h
    have h0 : (0 : UInt64) = v := h
    rw [← h0]
    decide
  | some s =>
    rw [hs] at h
    rw [← h]
    obtain ⟨h1, h2⟩ := atoi_bounds wild ((fgets 20 s).getD stack)
    exact isInt_ofInt h1 h2

variable {d : ℕ}

theorem digit_ne (hd : d < 10) {x : UInt8} (hx : x.toNat < 48) : Decimal.digit d ≠ x := by
  intro he
  have := congrArg UInt8.toNat he
  rw [Decimal.toNat_digit hd] at this
  omega

theorem digit_not_space (hd : d < 10) : isSpace (Decimal.digit d) = false := by
  have hne := digit_ne hd (x := 32) (by decide)
  have hn := Decimal.toNat_digit hd
  simp only [isSpace, hne, hn, false_or, decide_eq_false_iff_not]
  omega

/-- `strtol` reads the text of a number. -/
theorem strtol_text (n : ℕ) {rest : Bytes} (h : ∀ x ∈ rest.head?, Decimal.isDigit x = false) :
    strtol (Decimal.text n ++ rest) = n ∧ strtol (45 :: (Decimal.text n ++ rest)) = -(n : ℤ) := by
  have hval := Decimal.value_text n h
  refine ⟨?_, ?_⟩
  · obtain ⟨hne, hall⟩ := Decimal.text_digits n
    obtain ⟨x, xs, hx⟩ := exists_cons_of_ne_nil hne
    obtain ⟨d, hd, rfl⟩ := hall x (by rw [hx]; exact mem_cons_self)
    have hsp := digit_not_space hd
    have h45 := digit_ne hd (x := 45) (by decide)
    have h43 := digit_ne hd (x := 43) (by decide)
    rw [hx, cons_append] at hval ⊢
    rw [strtol, dropWhile_cons, hsp]
    simp only [Bool.false_eq_true, if_false]
    split
    · next r heq => exact absurd (List.cons.inj heq).1 h45
    · next r heq => exact absurd (List.cons.inj heq).1 h43
    · rw [hval]
  · rw [strtol, dropWhile_cons]
    simp only [show isSpace 45 = false from by decide, Bool.false_eq_true, if_false, hval]

/-- The line of a number is read back by `strtol`. -/
theorem strtol_ld (v : UInt64) : strtol (ld v ++ [10]) = signed v := by
  have hv := v.toNat_lt
  have h10 : ∀ x ∈ ([10] : Bytes).head?, Decimal.isDigit x = false := fun x hx => by
    cases hx
    rfl
  unfold ld signed
  split_ifs
  · exact (strtol_text _ h10).1
  · rw [cons_append, (strtol_text _ h10).2]
    omega

theorem ld_no_newline (v : UInt64) : ∀ x ∈ ld v, x ≠ 10 := by
  have htext : ∀ n, ∀ x ∈ Decimal.text n, x ≠ 10 := fun n x hx => by
    obtain ⟨d, hd, rfl⟩ := (Decimal.text_digits n).2 x hx
    exact digit_ne hd (by decide)
  unfold ld
  split_ifs
  · exact htext _
  · intro x hx
    rcases mem_cons.mp hx with rfl | hx
    · decide
    · exact htext _ x hx

/-- How long the text of an `int` is. -/
theorem length_ld (h : IsInt v) : (ld v).length ≤ 11 := by
  unfold IsInt at h
  unfold ld
  split_ifs
  · exact ((Decimal.length_text_le (by norm_num)).mpr (by omega : v.toNat < 10 ^ 10)).trans (by norm_num)
  · rw [length_cons]
    have := (Decimal.length_text_le (by norm_num)).mpr (by omega : 2 ^ 64 - v.toNat < 10 ^ 10)
    omega

/-- `fgets` stops at the end of the line, whatever is behind it. -/
theorem fgets_line {s : Bytes} (hn : ∀ x ∈ s, x ≠ 10) (rest : Bytes) {n : ℕ} (hl : s.length + 1 < n) :
    fgets n ((s ++ [10]) ++ rest) = some (s ++ [10]) := by
  have hidx : ((s ++ [10]) ++ rest).findIdx (fun x => decide (x = 10)) = s.length := by
    have hs : s.findIdx (fun x => decide (x = 10)) = s.length :=
      findIdx_eq_length.mpr fun x hx => by simpa using hn x hx
    rw [List.append_assoc, findIdx_append, hs]
    simp [findIdx_cons]
  have htake : ((s ++ [10]) ++ rest).take (s.length + 1) = s ++ [10] := by
    rw [take_append_of_le_length (by simp), take_of_length_le (by simp)]
  rw [fgets, if_neg (by simp), hidx, htake, take_of_length_le (by simp; omega)]

theorem ofInt_atoi_line (h : IsInt v) (rest : Bytes) :
    ofInt (atoi wild ((fgets 20 ((ld v ++ [10]) ++ rest)).getD stack)) = v := by
  have hlen := length_ld h
  have hint : -2 ^ 31 ≤ signed v ∧ signed v < 2 ^ 31 := by
    have := v.toNat_lt
    unfold IsInt at h
    unfold signed
    split_ifs
    · omega
    · omega
  rw [fgets_line (ld_no_newline v) _ (by omega), getD_some, atoi, strtol_ld, if_pos hint, ofInt_signed]

/-- After `put_int` of `v`, `get_int` returns it. -/
def IntFaithful (dir a : Bytes) (b : Option Bytes) (v : UInt64) (fs : Files) : Prop :=
  ∃ fs', putInt dir v a b fs = some fs' ∧ ∀ wild stack, getInt wild stack dir a b fs' = some v

/-- **Integers come back** exactly if an `int` can hold them. -/
theorem getInt_putInt (v : UInt64) : IntFaithful dir a b v fs ↔ (names dir a b).isSome = true ∧ IsInt v := by
  constructor
  · rintro ⟨fs', hput, hget⟩
    refine ⟨?_, isInt_getInt (hget (fun _ => 0) [])⟩
    obtain ⟨vs, -, hput⟩ := bind_eq_some_iff.mp hput
    rw [put_eq] at hput
    obtain ⟨n, hn, -⟩ := map_eq_some_iff.mp hput
    rw [hn]
    rfl
  · rintro ⟨hn, hv⟩
    obtain ⟨⟨f, t⟩, hn⟩ := isSome_iff_exists.mp hn
    have hlen := length_ld hv
    have hvs : sprintf 30 (ld v ++ [10]) = some (ld v ++ [10]) := by
      rw [sprintf, if_pos (by simp; omega)]
    refine ⟨replace fs f t (ld v ++ [10]), ?_, fun wild stack => ?_⟩
    · rw [putInt, hvs, bind_some, put_eq, hn]
      rfl
    · rw [getInt, (names_eq_some.mp hn).1, map_some, replace_get]
      exact congrArg some (ofInt_atoi_line hv _)

/-! ### Buffers come back -/

/-- After a `put` of `bl`, the `get` returns it; and if the `put` is cut short, the `get`
returns what it returned before. -/
def BlobFaithful (dir a : Bytes) (key : Key) (bl : Bytes) (fs : Files) : Prop :=
  (∃ fs', putBl dir bl a key fs = some fs' ∧ ∀ fresh, getBl fresh dir a key fs' = some (some bl)) ∧
  ∀ k fs', crashedPutBl dir bl a key k fs = some fs' →
    ∀ fresh, getBl fresh dir a key fs' = getBl fresh dir a key fs

/-- The names of a key's file, and of its second file. -/
def Key.names (dir a : Bytes) (key : Key) : Option (Bytes × Bytes) :=
  key.name.bind fun b => MonitorStore.names dir a b

theorem length_overlay (old : Option Bytes) (bl : Bytes) :
    (overlay old bl).length = max bl.length (old.getD []).length := by
  simp only [overlay, List.length_append, length_drop]
  omega

theorem int32_eq (n : ℕ) : int32 n = if n % 2 ^ 32 < 2 ^ 31 then ((n % 2 ^ 32 : ℕ) : ℤ) else (n % 2 ^ 32 : ℕ) - 2 ^ 32 := by
  rw [int32, BitVec.toInt_eq_toNat_cond, BitVec.toNat_ofNat]
  split_ifs <;> omega

/-- What `get_bl_ss` reads from the file that `bl` was written over. -/
theorem readBl_overlay (old : Option Bytes) (bl : Bytes) : (∀ fresh, readBl fresh (overlay old bl) = bl) ↔
    bl.length < 2 ^ 31 ∧ max bl.length (old.getD []).length % 2 ^ 32 = bl.length := by
  rw [← length_overlay]
  set s := overlay old bl with hs
  unfold readBl
  rw [int32_eq]
  by_cases hsmall : s.length % 2 ^ 32 < 2 ^ 31
  · rw [if_pos hsmall]
    by_cases hpos : 0 < s.length % 2 ^ 32
    · simp only [Nat.cast_pos, hpos, if_true, Int.toNat_natCast, forall_const]
      constructor
      · intro h
        have := congrArg List.length h
        rw [length_take] at this
        omega
      · rintro ⟨-, hlen⟩
        rw [hlen, hs, overlay, take_left']
        rfl
    · have h0 : s.length % 2 ^ 32 = 0 := by omega
      simp only [h0, Nat.cast_zero, lt_irrefl, if_false, Int.zero_emod, Int.toNat_zero, range_zero,
        map_nil, forall_const]
      constructor
      · intro h
        rw [← h]
        exact ⟨by norm_num, rfl⟩
      · rintro ⟨-, hlen⟩
        exact (eq_nil_of_length_eq_zero hlen.symm).symm
  · rw [if_neg hsmall]
    have hneg : ¬ (0 : ℤ) < ((s.length % 2 ^ 32 : ℕ) : ℤ) - 2 ^ 32 := by omega
    constructor
    · -- nothing is read, and the bytes are those of new memory
      intro h
      have h0 := h fun _ => 0
      have h1 := h fun _ => 1
      simp only [hneg, if_false] at h0 h1
      rw [← h1] at h0
      obtain ⟨k, hk⟩ : ∃ k, ((((s.length % 2 ^ 32 : ℕ) : ℤ) - 2 ^ 32) % 2 ^ 32).toNat = k + 1 :=
        Nat.exists_eq_succ_of_ne_zero (by omega)
      rw [hk, range_succ_eq_map] at h0
      simp at h0
    · rintro ⟨hbl, hlen⟩
      omega

/-- **Buffers come back** exactly if the size of the file that is left, cut to 32 bits, is
that of the buffer. -/
theorem getBl_putBl (key : Key) (bl : Bytes) : BlobFaithful dir a key bl fs ↔
    ∃ f t, key.names dir a = some (f, t) ∧ bl.length < 2 ^ 31 ∧
      max bl.length ((fs t).getD []).length % 2 ^ 32 = bl.length := by
  have hget : ∀ {f t : Bytes}, key.names dir a = some (f, t) → ∀ fresh (fs : Files),
      getBl fresh dir a key fs = some ((fs f).map (readBl fresh)) := by
    intro f t hn fresh fs
    obtain ⟨b, hb, hn⟩ := bind_eq_some_iff.mp hn
    rw [getBl, hb, bind_some, getBlSs, (names_eq_some.mp hn).1]
    rfl
  constructor
  · rintro ⟨⟨fs', hput, hback⟩, -⟩
    obtain ⟨b, hb, hput⟩ := bind_eq_some_iff.mp hput
    rw [putBlSs, put_eq] at hput
    obtain ⟨⟨f, t⟩, hn, rfl⟩ := map_eq_some_iff.mp hput
    have hnames : key.names dir a = some (f, t) := by rw [Key.names, hb, bind_some, hn]
    refine ⟨f, t, hnames, (readBl_overlay _ _).mp fun fresh => ?_⟩
    have := hback fresh
    rw [hget hnames, replace_get] at this
    simpa using this
  · rintro ⟨f, t, hn, hcond⟩
    have hread := (readBl_overlay (fs t) bl).mpr hcond
    obtain ⟨b, hb, hn'⟩ := bind_eq_some_iff.mp hn
    refine ⟨⟨replace fs f t bl, ?_, fun fresh => ?_⟩, fun k fs' hk fresh => ?_⟩
    · rw [putBl, hb, bind_some, putBlSs, put_eq, hn']
      rfl
    · rw [hget hn, replace_get, map_some, hread]
    · -- only the second file was touched
      obtain ⟨hf, ht⟩ := names_eq_some.mp hn'
      rw [crashedPutBl, hb, bind_some, crashedPut, hf, bind_some, ht, map_some] at hk
      cases hk
      rw [hget hn, hget hn, Function.update_of_ne (tfn_ne ht)]

/-- **The store is faithful** to an integer and a buffer exactly if their names fit, an
`int` can hold the integer, and the file that the buffer is written to keeps the buffer's
size. -/
theorem store_faithful (dir a a' : Bytes) (b : Option Bytes) (key : Key) (v : UInt64) (bl : Bytes) (fs : Files) :
    (IntFaithful dir a b v fs ∧ BlobFaithful dir a' key bl fs) ↔
      ((names dir a b).isSome = true ∧ IsInt v) ∧
      ∃ f t, key.names dir a' = some (f, t) ∧ bl.length < 2 ^ 31 ∧
        max bl.length ((fs t).getD []).length % 2 ^ 32 = bl.length := by
  rw [getInt_putInt, getBl_putBl]

/-- A crash has left two bytes in the `.new` file of `m/1`; after a `put` of one byte
there, the `get` returns two. And 2^31 does not come back. -/
theorem store_unfaithful :
    (¬ BlobFaithful [] [109] (.sn 1) [7] fun p => if p = [47, 109, 47, 49] ++ dotNew then some [5, 6] else none) ∧
    ¬ IntFaithful [] [109] (some [49]) 0x80000000 fun _ => none := by
  constructor
  · rw [getBl_putBl]
    rintro ⟨f, t, hn, -, hl⟩
    have hn' : (Key.sn 1).names [] [109] = some ([47, 109, 47, 49], [47, 109, 47, 49] ++ dotNew) := by decide
    cases hn
    exact absurd hl (by decide)
  · rw [getInt_putInt]
    rintro ⟨-, hv⟩
    exact absurd hv (by decide)

end MonitorStore
end Mon
end Ceph
