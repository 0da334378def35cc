/-
# The journal stays in its file

As long as the journal does not wrap, `do_write` writes entries only between
`get_top` and `max_size`, never over an entry of an epoch that the header
lists, and `header_t::push` never fails its assertion; this takes in full
journals, commits in the middle of a write, crashes and mounts.

`check_for_wrap` moves a copy of the position to the top of the file, and the
entry is written behind the end. Three more things are left out: positions
that do not fit the 32 bits of the mask of `ROUND_UP_2`, a commit that pops an
epoch while an entry of the new epoch is being written (`write_pos` then stays
where it was), and a mount with pointers left over from several crashes.
-/
import Ceph.Ebofs.FileJournal
import Mathlib.Data.List.TakeWhile

namespace Ceph
namespace Ebofs
namespace FileJournal

open List Header
open Option hiding max_eq_left max_eq_right
open Wire (Bytes)

variable (c : Config)

/-! ### The condition on a run -/

/-- None of the entries, placed from `pos` on, would be put across the end of the journal
while there is room before `first`. -/
def NoWrap (first : ℕ) : ℕ → List Entry → Prop
  | _, [] => True
  | pos, x :: xs => (pos + x.size < c.maxSize ∨ first ≤ c.top + x.size) ∧ NoWrap first (pos + x.size) xs

instance decidableNoWrap (first : ℕ) : ∀ (pos : ℕ) (xs : List Entry), Decidable (NoWrap c first pos xs)
  | _, [] => isTrue trivial
  | pos, x :: xs =>
    have := decidableNoWrap first (pos + x.size) xs
    inferInstanceAs (Decidable ((_ ∨ _) ∧ _))

/-- The bytes that an entry takes. -/
def itemSize (x : Entry) : ℕ := if c.directio then roundUp2 x.size c.alignment else x.size

/-- The offset of the oldest epoch. -/
def firstOffset (m : Mem) : ℕ := (m.header.ptrs.head?.map (·.2)).getD m.writePos

/-- The writer does not wrap, and the size of an entry fits the mask of `ROUND_UP_2`. -/
def StaysInFront (m : Mem) : Prop :=
  (c.directio = true → ∀ x ∈ m.writeq.head?, x.size + c.alignment ≤ 2 ^ 32 ∧
    (m.writePos + itemSize c x < c.maxSize ∨ firstOffset m ≤ c.top + itemSize c x)) ∧
  (c.directio = false → NoWrap c (firstOffset m) m.writePos m.writeq)

/-- A commit of epoch `e` that finishes now does not pop an epoch while an entry that is
not older is being written. -/
def NotInWrite (m : Mem) (e : ℕ) : Prop :=
  m.full = true ∨ (∀ e' ∈ m.header.epochs, e ≤ e') ∨
    ∀ f ∈ m.flight, ∀ i ∈ f.bl, i.entry.epoch < e

/-- A mount finds few pointers: two, or three of which the last is not older than the
entries and the superblock. -/
def FewPointers (s : State) : Prop :=
  s.header.ptrs.length ≤ 2 ∨
    (s.header.ptrs.length ≤ 3 ∧ s.sbEpoch ≤ s.header.lastEpoch ∧
      ∀ q < c.maxSize, ∀ x ∈ s.file q, x.epoch ≤ s.header.lastEpoch)

/-- The condition on a run. -/
def Unwrapped (s : State) : Act → Prop
  | .prepare => ∀ m ∈ s.mem, StaysInFront c m
  | .commitFinish => ∀ m ∈ s.mem, NotInWrite m m.superEpoch
  | .mount => FewPointers c s
  | _ => True

instance (m : Mem) : Decidable (StaysInFront c m) :=
  inferInstanceAs (Decidable ((_ → _) ∧ (_ → _)))

instance (m : Mem) (e : ℕ) : Decidable (NotInWrite m e) :=
  inferInstanceAs (Decidable (_ ∨ _ ∨ _))

instance (s : State) : Decidable (FewPointers c s) :=
  inferInstanceAs (Decidable (_ ∨ (_ ∧ _ ∧ _)))

instance : ∀ (s : State) (a : Act), Decidable (Unwrapped c s a)
  | _, .prepare | _, .commitFinish => inferInstanceAs (Decidable (∀ m ∈ _, _))
  | _, .mount => inferInstanceAs (Decidable (FewPointers c _))
  | _, .submit _ _ | _, .seek | _, .writeDone | _, .commitStart | _, .superWritten
  | _, .crash _ _ _ => isTrue trivial

/-! ### Headers -/

/-- A place in the file where an entry can go, and that can be rounded up. -/
structure Place (p : ℕ) : Prop where
  top : c.top ≤ p
  mask : p + c.alignment ≤ 2 ^ 32

/-- A header without a wrap: its epochs ascend, and its offsets are places. -/
structure HeaderInv (h : Header) : Prop where
  wrap : h.wrap = 0
  sorted : h.epochs.Pairwise (· < ·)
  place : ∀ p ∈ h.ptrs, Place c p.2

/-- A pointer for a new epoch is added at the end. -/
def Header.extend (h : Header) (e o : ℕ) : Header :=
  if e > h.lastEpoch then { h with ptrs := h.ptrs ++ [(e, o)] } else h

variable {c}

variable {h : Header}

theorem lastEpoch_eq {ps : List (ℕ × ℕ)} {p : ℕ × ℕ} (hp : h.ptrs = ps ++ [p]) :
    h.lastEpoch = p.1 := by
  simp [lastEpoch, hp]

theorem HeaderInv.le_last (hi : HeaderInv c h) {e : ℕ} (he : e ∈ h.epochs) : e ≤ h.lastEpoch := by
  rcases eq_nil_or_concat' h.ptrs with hn | ⟨ps, p, hp⟩
  · simp [epochs, hn] at he
  · rw [lastEpoch_eq hp]
    have hs := hi.sorted
    simp only [epochs, hp, map_append, map_cons, map_nil] at hs he
    rcases mem_append.mp he with he | he
    · exact (pairwise_append.mp hs).2.2 e he p.1 (by simp) |>.le
    · exact (mem_singleton.mp he).le

theorem HeaderInv.extend (hi : HeaderInv c h) {e o : ℕ} (ho : Place c o) :
    HeaderInv c (h.extend e o) := by
  unfold Header.extend
  split_ifs with he
  · refine ⟨hi.wrap, ?_, fun p hp => ?_⟩
    · simp only [epochs, map_append, map_cons, map_nil]
      refine pairwise_append.mpr ⟨hi.sorted, pairwise_singleton _ _, fun a ha b hb => ?_⟩
      rw [mem_singleton.mp hb]
      exact lt_of_le_of_lt (hi.le_last ha) he
    · rcases mem_append.mp hp with hp | hp
      · exact hi.place p hp
      · rw [mem_singleton.mp hp]
        exact ho
  · exact hi

theorem push_eq {e o : ℕ} (hn : h.ptrs.length < 4) (he : e > h.lastEpoch) :
    h.push e o = some (h.extend e o) := by
  rw [push, if_pos hn, Header.extend, if_pos he]
  split
  · next p q rest hr =>
    have hp : h.ptrs = (q :: rest).reverse ++ [p] := by
      have := congrArg reverse hr
      simpa using this
    have hl := lastEpoch_eq hp
    rw [if_neg]
    rintro ⟨-, hpe, -⟩
    omega
  · rfl

theorem mem_epochs_extend {e o x : ℕ} (hx : x ∈ (h.extend e o).epochs) : x ∈ h.epochs ∨ x = e := by
  unfold Header.extend at hx
  split_ifs at hx
  · simpa [epochs] using hx
  · exact .inl hx

theorem lastEpoch_extend (h : Header) (e o : ℕ) : (h.extend e o).lastEpoch = max h.lastEpoch e := by
  unfold Header.extend
  split_ifs with he
  · rw [lastEpoch_eq (p := (e, o)) rfl, max_eq_right he.le]
  · rw [max_eq_left (not_lt.mp he)]

theorem extend_ne_nil {e o : ℕ} (he : 0 < e) : (h.extend e o).ptrs ≠ [] := by
  unfold Header.extend
  split_ifs with hgt
  · simp
  · intro hn
    simp [lastEpoch, hn] at hgt
    omega

theorem head_extend {e o : ℕ} (he : 0 < e) :
    ((h.extend e o).ptrs.head?.map (·.2)).getD 0 = (h.ptrs.head?.map (·.2)).getD o := by
  unfold Header.extend
  cases hp : h.ptrs with
  | nil => simp [lastEpoch, hp, he]
  | cons p ps => split_ifs <;> simp [hp]

/-- **The spec of `check_for_wrap`** where it does not wrap. -/
theorem checkForWrap_eq {superEpoch epoch pos size : ℕ} {must : Bool} (hw : h.wrap = 0)
    (he : 0 < epoch) (hn : epoch > h.lastEpoch → h.ptrs.length < 4)
    (hf : pos + size < c.maxSize ∨ (h.ptrs.head?.map (·.2)).getD pos ≤ c.top + size) :
    checkForWrap c superEpoch h must epoch pos size =
      some ⟨h.extend epoch pos, must || decide (epoch > h.lastEpoch), decide (pos + size ≥ c.maxSize)⟩ := by
  have hfirst := head_extend (h := h) (o := pos) he
  have hwrap : (h.extend epoch pos).wrap = 0 := by
    unfold Header.extend
    split_ifs
    · exact hw
    · exact hw
  have hpush : epochBoundary h must epoch pos =
      some (h.extend epoch pos, must || decide (epoch > h.lastEpoch)) := by
    unfold epochBoundary
    split_ifs with hgt
    · rw [push_eq (hn hgt) hgt]
      simp [hgt]
    · simp [Header.extend, hgt]
  rw [checkForWrap, hpush, bind_some, doesItFit]
  simp only [hwrap, ne_eq, not_true_eq_false, if_false, hfirst]
  by_cases hfit : pos + size ≥ c.maxSize
  · rw [if_pos hfit, if_neg (by omega)]
    simp [hfit]
  · rw [if_neg hfit]
    simp [hfit]

/-! ### The invariant -/

/-- How many pointers there are: entries of the current epoch, and during a commit also
of the one before, can still add theirs. -/
def Pointers (e : ℕ) : Phase → Header → Prop
  | .idle, h => h.ptrs.length ≤ 2 ∨ (h.ptrs.length ≤ 3 ∧ e ≤ h.lastEpoch)
  | .started, h | .written, h => h.ptrs.length ≤ 2 ∨ (h.ptrs.length ≤ 3 ∧ e ≤ h.lastEpoch + 1) ∨
      (h.ptrs.length ≤ 4 ∧ h.lastEpoch = e)

/-- The entries that are queued belong to the current epoch, or during a commit to the
one before. -/
structure Queue (e : ℕ) (phase : Phase) (q : List Entry) : Prop where
  le : ∀ x ∈ q, x.epoch ≤ e
  ge : ∀ x ∈ q, e ≤ x.epoch + 1
  idle : phase = .idle → ∀ x ∈ q, x.epoch = e
  pos : ∀ x ∈ q, 0 < x.epoch
  sorted : q.Pairwise (·.epoch ≤ ·.epoch)

/-- The entry is of an epoch that no pointer has or will have. -/
structure Old (m : Mem) (x : Entry) : Prop where
  listed : ∀ e ∈ m.header.epochs, x.epoch < e
  queued : ∀ y ∈ m.writeq, x.epoch < y.epoch
  next : x.epoch < if m.full = true ∧ m.header.ptrs = [] then m.superEpoch + 1 else m.superEpoch

/-- The items lie one behind the other. -/
def Layout : ℕ → List Item → Prop
  | _, [] => True
  | p, i :: is => i.stamp = p ∧ i.entry.size ≤ i.size ∧ Layout (p + i.size) is

variable (c)

/-- What `do_write` holds. The second case of `header` is a commit that has finished in
the meantime. -/
structure FlightInv (m : Mem) (f : Flight) : Prop where
  hbp : ∀ h ∈ f.hbp, HeaderInv c h
  layout : Layout f.start f.bl
  fits : f.bl ≠ [] → f.start + length f.bl < c.maxSize
  epochs : ∀ i ∈ f.bl, i.entry.epoch ≤ m.superEpoch
  last : ∀ i ∈ f.bl, i.entry.epoch ≤ f.oldHeader.lastEpoch
  start : m.writePos ≤ f.start
  pos : ∀ p ∈ f.pos, m.writePos ≤ p ∧ p ≤ f.start
  nonempty : f.oldHeader.ptrs ≠ []
  header : (m.header = f.oldHeader ∧ m.writePos = f.start) ∨ ∀ i ∈ f.bl, Old m i.entry
  writingq : m.header = f.oldHeader ∨ m.writingq = []

/-- A mounted journal. -/
structure RingMem (items : List Item) (m : Mem) : Prop where
  header : HeaderInv c m.header
  pointers : Pointers m.superEpoch m.phase m.header
  epoch : 0 < m.superEpoch
  queue : Queue m.superEpoch m.phase m.writeq
  full : m.full = true → m.writeq = []
  usable : m.phase ≠ .idle → ¬ (m.full = true ∧ m.header.ptrs = [])
  place : Place c m.writePos
  held : ∀ i ∈ items, i.stamp + i.size ≤ m.writePos ∨ Old m i.entry
  heldEpoch : ∀ i ∈ items, i.entry.epoch ≤ m.superEpoch
  -- in a commit, the entries of the new epoch have a pointer
  heldLast : m.phase ≠ .idle → ∀ i ∈ items, i.entry.epoch < m.superEpoch ∨ m.superEpoch ≤ m.header.lastEpoch
  flight : ∀ f, m.flight = some f → FlightInv c m f

structure Ring (s : State) : Prop where
  ok : s.ok = true
  epoch : 0 < s.sbEpoch
  header : HeaderInv c s.header
  file : ∀ q x, s.file q = some x → q + x.size < c.maxSize
  mem : ∀ m, s.mem = some m → RingMem c s.held m

variable {c} {s : State} {held : List Item}

theorem Pointers.extend {e o : ℕ} {phase : Phase} {q : List Entry} {x : Entry}
    (hp : Pointers e phase h) (hq : Queue e phase q) (hx : x ∈ q) :
    (x.epoch > h.lastEpoch → h.ptrs.length < 4) ∧ Pointers e phase (h.extend x.epoch o) := by
  have hle := hq.le x hx
  have hge := hq.ge x hx
  have hidle := fun hi => hq.idle hi x hx
  unfold Header.extend
  by_cases hgt : x.epoch > h.lastEpoch
  · rw [if_pos hgt]
    have hlast : ({ h with ptrs := h.ptrs ++ [(x.epoch, o)] } : Header).lastEpoch = x.epoch :=
      lastEpoch_eq (p := (x.epoch, o)) rfl
    cases phase with
    | idle =>
      have := hidle rfl
      simp only [Pointers, length_append, length_singleton, hlast] at hp ⊢
      omega
    | started | written =>
      simp only [Pointers, length_append, length_singleton, hlast] at hp ⊢
      omega
  · rw [if_neg hgt]
    exact ⟨fun hc => absurd hc hgt, hp⟩

theorem length_append (bl : List Item) (i : Item) : length (bl ++ [i]) = length bl + i.size := by
  simp [length]

theorem Layout.append : ∀ {p : ℕ} {bl : List Item} {i : Item}, Layout p bl → i.stamp = p + length bl →
    i.entry.size ≤ i.size → Layout p (bl ++ [i])
  | _, [], _, _, hi, hs => ⟨by simpa [length] using hi, hs, trivial⟩
  | p, j :: bl, i, ⟨h1, h2, h3⟩, hi, hs =>
    ⟨h1, h2, h3.append (by rw [hi]; simp [length, add_assoc]) hs⟩

variable (c) in
/-- What a round of the writer has taken so far, with `next` the place of the next entry. -/
structure TakenInv (m : Mem) (next : ℕ) (t : Taken) : Prop where
  header : HeaderInv c t.header
  pointers : Pointers m.superEpoch m.phase t.header
  listed : ∀ e ∈ t.header.epochs, e ∈ m.header.epochs ∨ ∃ x ∈ m.writeq, x.epoch = e
  first : (t.header.ptrs.head?.map (·.2)).getD m.writePos = firstOffset m
  nonempty : t.bl ≠ [] ∨ t.mustWriteHeader = true → t.header.ptrs ≠ []
  suffix : ∃ pre, m.writeq = pre ++ t.writeq
  full : t.full = true → t.writeq = []
  layout : Layout m.writePos t.bl
  place : next = m.writePos + length t.bl
  fits : t.bl ≠ [] → next < c.maxSize
  mem : ∀ i ∈ t.bl, i.entry ∈ m.writeq
  last : ∀ i ∈ t.bl, i.entry.epoch ≤ t.header.lastEpoch
  grows : m.header.lastEpoch ≤ t.header.lastEpoch
  usable : t.full = true → m.full = true ∨ t.header.ptrs ≠ []

/-- One entry in a round of the writer: what `check_for_wrap` leaves. -/
theorem TakenInv.check (hc : c.maxSize + c.alignment ≤ 2 ^ 32) {m : Mem} {next size : ℕ} {t : Taken} {x : Entry} {q : List Entry}
    (h : TakenInv c m next t) (hm : RingMem c held m) (hq : t.writeq = x :: q)
    (hw : next + size < c.maxSize ∨ firstOffset m ≤ c.top + size) :
    ∃ k, checkForWrap c m.superEpoch t.header t.mustWriteHeader x.epoch next size = some k ∧
      k.full = decide (next + size ≥ c.maxSize) ∧
      TakenInv c m next { t.check k with full := false } ∧ k.header.ptrs ≠ [] ∧
      x.epoch ≤ k.header.lastEpoch := by
  obtain ⟨pre, hpre⟩ := h.suffix
  have hx : x ∈ m.writeq := by rw [hpre, hq]; simp
  have hpos := hm.queue.pos x hx
  obtain ⟨hroom, hptrs⟩ := h.pointers.extend (o := next) hm.queue hx
  have hplace : Place c next := by
    refine ⟨hm.place.top.trans (by rw [h.place]; exact Nat.le_add_right _ _), ?_⟩
    by_cases hbl : t.bl = []
    · rw [h.place, hbl]
      exact hm.place.mask
    · have := h.fits hbl
      omega
  -- an empty header means that nothing has been taken
  have hempty : t.header.ptrs = [] → next = m.writePos := by
    intro hn
    have hbl : t.bl = [] := by
      by_contra hc
      exact h.nonempty (.inl hc) hn
    rw [h.place, hbl]
    rfl
  have hfirst : (t.header.ptrs.head?.map (·.2)).getD next = firstOffset m := by
    rw [← h.first]
    cases hp : t.header.ptrs with
    | nil => simp [hempty hp]
    | cons => simp
  have hne := extend_ne_nil (h := t.header) (o := next) hpos
  have hgrow : t.header.lastEpoch ≤ (t.header.extend x.epoch next).lastEpoch := by
    rw [lastEpoch_extend]
    exact le_max_left _ _
  refine ⟨_, checkForWrap_eq h.header.wrap hpos hroom (by rw [hfirst]; exact hw), rfl, ?_, hne,
    by rw [lastEpoch_extend]; exact le_max_right _ _⟩
  · refine { h with
      header := h.header.extend hplace
      pointers := hptrs
      listed := fun e he => ?_
      first := ?_
      nonempty := fun _ => hne
      full := fun hc => by simp at hc
      usable := fun hc => by simp at hc
      last := fun i hi => (h.last i hi).trans hgrow
      grows := h.grows.trans hgrow }
    · rcases mem_epochs_extend he with he | rfl
      · exact h.listed e he
      · exact .inr ⟨x, hx, rfl⟩
    · rw [← h.first]
      cases hp : t.header.ptrs with
      | nil => simp [Taken.check, Header.extend, lastEpoch, hp, hpos, hempty hp]
      | cons p ps =>
        simp only [Taken.check, Header.extend]
        split_ifs <;> simp [hp]

theorem TakenInv.add {m : Mem} {next size : ℕ} {t : Taken} {x : Entry} {q : List Entry}
    (h : TakenInv c m next t) (hq : t.writeq = x :: q) (hf : t.full = false)
    (hsize : x.size ≤ size) (hfit : next + size < c.maxSize) (hne : t.header.ptrs ≠ [])
    (hlast : x.epoch ≤ t.header.lastEpoch) :
    TakenInv c m (next + size) (t.add ⟨next, size, x⟩) := by
  obtain ⟨pre, hpre⟩ := h.suffix
  refine { h with
    nonempty := fun _ => hne
    suffix := ⟨pre ++ [x], by simp [Taken.add, hpre, hq]⟩
    full := fun hc => by simp [Taken.add, hf] at hc
    layout := h.layout.append h.place hsize
    place := ?_
    fits := fun _ => hfit
    mem := fun i hi => ?_
    last := fun i hi => ?_ }
  · rw [Taken.add, length_append, h.place, add_assoc]
  · rcases mem_append.mp hi with hi | hi
    · exact h.mem i hi
    · rw [mem_singleton.mp hi, hpre, hq]
      simp
  · rcases mem_append.mp hi with hi | hi
    · exact h.last i hi
    · rw [mem_singleton.mp hi]
      exact hlast

theorem TakenInv.dropQueue {m : Mem} {next : ℕ} {t : Taken} (h : TakenInv c m next t)
    (hne : t.header.ptrs ≠ []) (full : Bool) : TakenInv c m next { t with full := full, writeq := [] } :=
  { h with suffix := ⟨m.writeq, by simp⟩, full := fun _ => rfl, usable := fun _ => .inr hne }

theorem prepareMultiWrite_taken (hc : c.maxSize + c.alignment ≤ 2 ^ 32) {m : Mem} (hm : RingMem c held m) : ∀ {q : List Entry} {next : ℕ}
    {eleft bleft : ℤ} {t : Taken}, TakenInv c m next t → t.writeq = q → t.full = false →
    NoWrap c (firstOffset m) next q →
    ∃ t' next', prepareMultiWrite c m.superEpoch q next eleft bleft t = some t' ∧ TakenInv c m next' t'
  | [], next, _, _, t, h, _, _, _ => ⟨t, next, rfl, h⟩
  | x :: q, next, eleft, bleft, t, h, hq, hf, hw => by
    rw [prepareMultiWrite]
    by_cases hb : t.bl ≠ [] ∧ bleft > 0 ∧ bleft < x.size
    · rw [if_pos hb]
      exact ⟨t, next, rfl, h⟩
    · rw [if_neg hb]
      obtain ⟨k, hk, hfull, hck, hne, hlast⟩ := h.check hc hm hq hw.1
      rw [hk, bind_some]
      dsimp only
      by_cases hkf : k.full = true
      · rw [if_pos hkf]
        exact ⟨_, next, rfl, hck.dropQueue hne k.full⟩
      · rw [if_neg hkf]
        have hcheck : { t.check k with full := false } = t.check k := by
          simp [Taken.check, hkf]
        rw [hcheck] at hck
        have hfit : next + x.size < c.maxSize := by
          simpa [hfull] using hkf
        have hadd := hck.add hq (by simpa [Taken.check] using hkf) le_rfl hfit hne hlast
        split_ifs
        · exact ⟨_, next, rfl, hck⟩
        · exact ⟨_, _, rfl, hadd⟩
        · exact prepareMultiWrite_taken hc hm hadd (by simp [Taken.add, Taken.check, hq])
            (by simpa [Taken.add, Taken.check] using hkf) hw.2

theorem roundUp2_le {n d : ℕ} (hd : 0 < d) (hn : n + d ≤ 2 ^ 32) : n ≤ roundUp2 n d ∧ roundUp2 n d < n + d := by
  rw [roundUp2, Nat.mod_eq_of_lt (by omega)]
  have h1 := Nat.div_add_mod (n + d - 1) d
  have h2 := Nat.mod_lt (n + d - 1) hd
  rw [mul_comm] at h1
  omega

theorem alignment_pos : 0 < c.alignment := by
  unfold Config.alignment
  split_ifs
  · exact Nat.pos_of_dvd_of_pos c.dvd (by norm_num)
  · exact Nat.zero_lt_succ _

theorem prepareSingleDioWrite_taken (hc : c.maxSize + c.alignment ≤ 2 ^ 32) {m : Mem} (hm : RingMem c held m) {t : Taken}
    (h : TakenInv c m m.writePos t)
    (hs : ∀ x ∈ t.writeq.head?, x.size ≤ roundUp2 x.size c.alignment)
    (hw : ∀ x ∈ t.writeq.head?, m.writePos + roundUp2 x.size c.alignment < c.maxSize ∨
      firstOffset m ≤ c.top + roundUp2 x.size c.alignment) :
    ∃ t' next', prepareSingleDioWrite c m.superEpoch m.writePos t = some t' ∧ TakenInv c m next' t' := by
  rw [prepareSingleDioWrite]
  cases hq : t.writeq with
  | nil => exact ⟨t, _, rfl, h⟩
  | cons x q =>
    obtain ⟨k, hk, hfull, hck, hne, hlast⟩ := h.check hc hm hq (hw x (by simp [hq]))
    dsimp only
    rw [hk, map_some]
    by_cases hkf : k.full = true
    · rw [if_pos hkf]
      exact ⟨_, _, rfl, hck.dropQueue hne k.full⟩
    · rw [if_neg hkf]
      have hcheck : { t.check k with full := false } = t.check k := by
        simp [Taken.check, hkf]
      rw [hcheck] at hck
      have hfit : m.writePos + roundUp2 x.size c.alignment < c.maxSize := by
        simpa [hfull] using hkf
      exact ⟨_, _, rfl, hck.add hq (by simpa [Taken.check] using hkf) (hs x (by simp [hq])) hfit hne hlast⟩

/-! ### The writer -/

section steps

variable (hc : c.maxSize + c.alignment ≤ 2 ^ 32) {m : Mem}

theorem Queue.suffix {e : ℕ} {phase : Phase} {pre q : List Entry} (h : Queue e phase (pre ++ q)) :
    Queue e phase q where
  le x hx := h.le x (mem_append_right _ hx)
  ge x hx := h.ge x (mem_append_right _ hx)
  idle hi x hx := h.idle hi x (mem_append_right _ hx)
  pos x hx := h.pos x (mem_append_right _ hx)
  sorted := (pairwise_append.mp h.sorted).2.1

include hc in
/-- The entries of a round of the writer. -/
theorem take_taken (hm : RingMem c held m) (hf : m.full = false) (hw : StaysInFront c m) :
    ∃ t next, take c m = some t ∧ TakenInv c m next t := by
  have h0 : TakenInv c m m.writePos ⟨m.header, false, m.full, m.writeq, m.commitq, m.writingq, []⟩ :=
    { header := hm.header, pointers := hm.pointers
      listed := fun e he => .inl he
      first := rfl
      nonempty := by simp
      suffix := ⟨[], rfl⟩
      full := hm.full
      layout := trivial
      place := by simp [length]
      fits := by simp
      mem := by simp
      last := by simp
      grows := le_rfl
      usable := .inl }
  rw [take]
  by_cases hd : c.directio = true
  · rw [if_pos hd]
    have hi : ∀ x, itemSize c x = roundUp2 x.size c.alignment := fun x => if_pos hd
    refine prepareSingleDioWrite_taken hc hm h0 (fun x hx => ?_) fun x hx => ?_
    · exact (roundUp2_le alignment_pos (hw.1 hd x hx).1).1
    · rw [← hi]
      exact (hw.1 hd x hx).2
  · rw [if_neg hd]
    exact prepareMultiWrite_taken hc hm h0 rfl hf (hw.2 (by simpa using hd))

include hc in
/-- **A round of the writer.** -/
theorem prepare_ring (hm : RingMem c held m) (hfl : m.flight = none) (hf : m.full = false)
    (hw : StaysInFront c m) : ∃ m', prepare c m = some m' ∧ RingMem c held m' := by
  obtain ⟨t, next, ht, h⟩ := take_taken hc hm hf hw
  obtain ⟨pre, hpre⟩ := h.suffix
  set m1 : Mem := { m with
    header := t.header, mustWriteHeader := t.mustWriteHeader, full := t.full
    writeq := t.writeq, commitq := t.commitq, writingq := t.writingq } with hm1
  have hold : ∀ x, Old m x → ∀ fl, Old { m1 with flight := fl } x := by
    intro x ho fl
    refine ⟨fun e he => ?_, fun y hy => ?_, ?_⟩
    · rcases h.listed e he with he | ⟨y, hy, rfl⟩
      · exact ho.listed e he
      · exact ho.queued y hy
    · exact ho.queued y (by rw [hpre]; exact mem_append_right _ hy)
    · have hn := ho.next
      rw [if_neg (by simp [hf])] at hn
      split_ifs
      · exact hn.trans (Nat.lt_succ_self _)
      · exact hn
  have hbase : ∀ fl, (∀ f, fl = some f → FlightInv c { m1 with flight := fl } f) →
      RingMem c held { m1 with flight := fl } := by
    intro fl hfi
    exact {
      header := h.header, pointers := h.pointers, epoch := hm.epoch
      queue := (hpre ▸ hm.queue).suffix
      full := h.full
      usable := fun _ ⟨hfull, hnil⟩ => (h.usable hfull).elim (by simp [hf]) (absurd hnil)
      place := hm.place
      held := fun i hi => (hm.held i hi).imp id fun ho => hold _ ho fl
      heldEpoch := hm.heldEpoch
      heldLast := fun hp i hi => (hm.heldLast hp i hi).imp id fun hl => hl.trans h.grows
      flight := hfi }
  have hp : prepare c m = some (if t.bl = [] ∧ ¬ t.mustWriteHeader then m1 else
      { m1 with flight := some ⟨if t.mustWriteHeader then some t.header else none, t.bl, t.header,
        m.writePos, none⟩ }) := by
    rw [prepare, ht]
    rfl
  refine ⟨_, hp, ?_⟩
  by_cases hn : t.bl = [] ∧ ¬ t.mustWriteHeader
  · rw [if_pos hn]
    exact hbase m.flight (by simp [hfl])
  · rw [if_neg hn]
    refine hbase _ fun f hff => ?_
    cases hff
    have hne : t.header.ptrs ≠ [] := h.nonempty (by
      by_cases hbl : t.bl = []
      · exact .inr (by simpa [hbl] using hn)
      · exact .inl hbl)
    exact {
      hbp := fun h' hh' => by
        have hh : (if t.mustWriteHeader = true then some t.header else none) = some h' := hh'
        split_ifs at hh
        cases hh
        exact h.header
      layout := h.layout
      fits := fun hb => by rw [← h.place]; exact h.fits hb
      epochs := fun i hi => hm.queue.le _ (h.mem i hi)
      last := h.last
      start := le_rfl
      pos := by simp
      nonempty := hne
      header := .inl ⟨rfl, rfl⟩
      writingq := .inl rfl }

variable {f : Flight} {h : Header}

/-- `write_pos` is read. -/
theorem seek_ring (hm : RingMem c held m) (hf : m.flight = some f) :
    RingMem c held { m with flight := some { f with pos := some m.writePos } } := by
  have hfi := hm.flight f hf
  refine { hm with
    held := fun i hi => (hm.held i hi).imp id fun ho => { ho with }
    flight := fun f' hf' => ?_ }
  cases hf'
  exact { hfi with
    pos := fun p hp => by
      cases hp
      exact ⟨le_rfl, hfi.start⟩
    header := hfi.header.imp id fun ho i hi => { ho i hi with } }

/-! ### The end of a write -/

theorem Layout.mem : ∀ {p : ℕ} {bl : List Item}, Layout p bl → ∀ i ∈ bl,
    p ≤ i.stamp ∧ i.stamp + i.size ≤ p + length bl ∧ i.entry.size ≤ i.size
  | _, [], _, _, hi => by simp at hi
  | p, j :: bl, ⟨h1, h2, h3⟩, i, hi => by
    have hl : length (j :: bl) = j.size + length bl := by simp [length]
    rcases mem_cons.mp hi with rfl | hi
    · omega
    · have := h3.mem i hi
      omega

theorem foldl_update {bl : List Item} {new : ℕ → Bool} {q : ℕ} {x : Entry} : ∀ {g : ℕ → Option Entry},
    bl.foldl (fun (g : ℕ → Option Entry) i =>
      if new i.stamp then Function.update g i.stamp (some i.entry) else g) g q = some x →
    g q = some x ∨ ∃ i ∈ bl, i.stamp = q ∧ i.entry = x := by
  induction bl with
  | nil => exact fun h => .inl h
  | cons i bl ih =>
    intro g h
    rcases ih h with h | ⟨j, hj, h⟩
    · dsimp only at h
      split_ifs at h with hn
      · by_cases hq : q = i.stamp
        · subst hq
          rw [Function.update_self] at h
          exact .inr ⟨i, mem_cons_self, rfl, some.inj h⟩
        · rw [Function.update_of_ne hq] at h
          exact .inl h
      · exact .inl h
    · exact .inr ⟨j, mem_cons_of_mem _ hj, h⟩

theorem persist_eq {file : ℕ → Option Entry} {p q : ℕ} {old new : ℕ → Bool} {x : Entry}
    (h : persist file f p old new q = some x) :
    file q = some x ∨ ∃ i ∈ f.bl, i.stamp = q ∧ i.entry = x := by
  have hclear : ∀ {q x}, ((file q).filter fun x => apart p (length f.bl) q x.size ∨ old q) = some x →
      file q = some x := fun h => (filter_eq_some_iff.mp h).1
  unfold persist at h
  split_ifs at h
  · exact (foldl_update h).imp hclear id
  · exact .inl (hclear h)

theorem persist_ring (hf : ∀ q x, s.file q = some x → q + x.size < c.maxSize)
    (hfi : FlightInv c m f) (p : ℕ) (old new : ℕ → Bool) :
    ∀ q x, persist s.file f p old new q = some x → q + x.size < c.maxSize := by
  intro q x hx
  rcases persist_eq hx with hx | ⟨i, hi, rfl, rfl⟩
  · exact hf q x hx
  · have hl := hfi.layout.mem i hi
    have hb := hfi.fits (ne_nil_of_mem hi)
    omega

theorem hbp_ring (hh : HeaderInv c s.header) (hfi : FlightInv c m f) :
    HeaderInv c (f.hbp.getD s.header) := by
  cases hb : f.hbp with
  | none => exact hh
  | some h => exact hfi.hbp h hb

theorem roundUp2_place {n : ℕ} (hn : n + c.alignment ≤ 2 ^ 32) (ht : c.top ≤ n) :
    n ≤ roundUp2 n c.alignment ∧ Place c (roundUp2 n c.alignment) := by
  obtain ⟨h1, h2⟩ := roundUp2_le alignment_pos hn
  have hdvd : c.alignment ∣ 2 ^ 32 := by
    unfold Config.alignment
    split_ifs
    · exact c.dvd.trans (by norm_num)
    · norm_num
  obtain ⟨k, hk⟩ := hdvd
  refine ⟨h1, ht.trans h1, ?_⟩
  -- the result is a multiple of the alignment below the 32 bits
  rw [roundUp2] at h2 ⊢
  set r := (n + c.alignment - 1) % 2 ^ 32 / c.alignment
  have hlt : r < k := by
    by_contra hc
    have : k * c.alignment ≤ r * c.alignment := Nat.mul_le_mul_right _ (not_lt.mp hc)
    rw [mul_comm k, ← hk] at this
    omega
  calc r * c.alignment + c.alignment = (r + 1) * c.alignment := (Nat.succ_mul r _).symm
    _ ≤ k * c.alignment := Nat.mul_le_mul_right _ hlt
    _ = 2 ^ 32 := by rw [mul_comm, hk]

include hc in
/-- **The end of a write.** -/
theorem doWriteDone_ring (h : Ring c s) (hm : s.mem = some m) (hf : m.flight = some f) (p : ℕ) :
    Ring c (doWriteDone c s m f p) := by
  have hi := h.mem m hm
  have hfi := hi.flight f hf
  have hfits : m.writePos + length f.bl + c.alignment ≤ 2 ^ 32 := by
    by_cases hbl : f.bl = []
    · have := hi.place.mask
      rw [hbl]
      exact this
    · have := hfi.fits hbl
      have := hfi.start
      omega
  obtain ⟨hge, hplace⟩ := roundUp2_place hfits (hi.place.top.trans (Nat.le_add_right _ _))
  -- what is held, against the new write position
  have hheld : ∀ i ∈ holdAfter s.held f p, i ∈ s.held ∨ i ∈ f.bl := by
    intro i hi
    rcases mem_append.mp hi with hi | hi
    · exact .inl (mem_of_mem_filter hi)
    · split_ifs at hi
      · exact .inr hi
      · simp at hi
  have hitem : ∀ i ∈ f.bl, (m.header = f.oldHeader ∧ i.stamp + i.size ≤ m.writePos + length f.bl) ∨
      Old m i.entry := by
    intro i hi
    rcases hfi.header with ⟨hh, hw⟩ | ho
    · have := hfi.layout.mem i hi
      exact .inl ⟨hh, by omega⟩
    · exact .inr (ho i hi)
  have hepoch : ∀ i ∈ holdAfter s.held f p, i.entry.epoch ≤ m.superEpoch := fun i hi' =>
    (hheld i hi').elim (hi.heldEpoch i) (hfi.epochs i)
  have hlast : m.phase ≠ .idle → ∀ i ∈ holdAfter s.held f p,
      i.entry.epoch < m.superEpoch ∨ m.superEpoch ≤ m.header.lastEpoch := by
    intro hph i hi'
    rcases hheld i hi' with hi' | hi'
    · exact hi.heldLast hph i hi'
    · rcases hitem i hi' with ⟨hh, -⟩ | ho
      · have hl := hfi.last i hi'
        rw [← hh] at hl
        omega
      · have := ho.next
        rw [if_neg (hi.usable hph)] at this
        exact .inl this
  have hbase : ∀ w wq, (∀ i ∈ holdAfter s.held f p, i.stamp + i.size ≤ w ∨ Old m i.entry) → Place c w →
      RingMem c (holdAfter s.held f p) { m with writePos := w, writingq := wq, flight := none } := by
    intro w wq hw hpl
    exact { hi with
      place := hpl
      held := fun i hi' => (hw i hi').imp id fun ho => { ho with }
      heldEpoch := hepoch
      heldLast := hlast
      flight := by simp }
  have hkeep : ∀ i ∈ s.held, ∀ w, m.writePos ≤ w → i.stamp + i.size ≤ w ∨ Old m i.entry := fun i hi' w hw =>
    (hi.held i hi').imp (fun hl => hl.trans hw) id
  have hfile := persist_ring h.file hfi p (fun _ => false) (fun _ => true)
  have hhead := hbp_ring h.header hfi
  rw [doWriteDone]
  split_ifs with hsame hwq
  · refine ⟨h.ok, h.epoch, hhead, hfile, fun m' hm' => ?_⟩
    cases hm'
    refine hbase _ _ (fun i hi' => ?_) hplace
    rcases hheld i hi' with hi' | hi'
    · exact hkeep i hi' _ ((Nat.le_add_right _ _).trans hge)
    · exact (hitem i hi').imp (fun hl => hl.2.trans hge) id
  · refine ⟨h.ok, h.epoch, hhead, hfile, fun m' hm' => ?_⟩
    cases hm'
    refine hbase _ _ (fun i hi' => ?_) hi.place
    rcases hheld i hi' with hi' | hi'
    · exact hkeep i hi' _ le_rfl
    · exact (hitem i hi').imp (fun hl => absurd hl.1.symm hsame) id
  · exact absurd (hfi.writingq.resolve_left fun hh => hsame hh.symm) hwq

/-! ### Commits -/

theorem commitEpochStart_eq (m : Mem) :
    commitEpochStart m = { m with full := decide (m.full = true ∧ m.header.ptrs ≠ []) } := by
  unfold commitEpochStart
  split_ifs with h
  · simp [h.2]
  · by_cases hf : m.full = true
    · have hn : m.header.ptrs ≠ [] := fun hn => h ⟨hf, hn⟩
      cases m
      simp_all
    · cases m
      simp_all

theorem commitStart_ring (hm : RingMem c held m) (hp : m.phase = .idle) :
    RingMem c held (commitEpochStart { m with superEpoch := m.superEpoch + 1, phase := .started }) := by
  have hptr : Pointers (m.superEpoch + 1) .started m.header := by
    have := hm.pointers
    rw [hp] at this
    simp only [Pointers] at this ⊢
    omega
  have hqueue : Queue (m.superEpoch + 1) .started m.writeq :=
    { le := fun x hx => (hm.queue.le x hx).trans (Nat.le_succ _)
      ge := fun x hx => Nat.succ_le_succ (hm.queue.idle hp x hx).ge
      idle := fun hi => by cases hi
      pos := hm.queue.pos
      sorted := hm.queue.sorted }
  rw [commitEpochStart_eq]
  set m' : Mem := { m with
    superEpoch := m.superEpoch + 1, phase := .started
    full := decide (m.full = true ∧ m.header.ptrs ≠ []) } with hm'
  have hfull : m'.full = true → m.full = true ∧ m.header.ptrs ≠ [] := fun h => by simpa [hm'] using h
  -- an empty header ends the time in which the journal is full
  have hold : ∀ {x}, Old m x → Old m' x := by
    intro x ho
    refine ⟨ho.listed, ho.queued, ?_⟩
    rw [if_neg fun h => (hfull h.1).2 h.2]
    have hn := ho.next
    split_ifs at hn
    · exact hn
    · exact hn.trans (Nat.lt_succ_self _)
  have hepoch : ∀ i ∈ held, i.entry.epoch < m.superEpoch + 1 := fun i hi => Nat.lt_succ_of_le (hm.heldEpoch i hi)
  exact { hm with
    pointers := hptr, epoch := Nat.succ_pos _, queue := hqueue
    full := fun h => hm.full (hfull h).1
    usable := fun _ h => (hfull h.1).2 h.2
    held := fun i hi => (hm.held i hi).imp id hold
    heldEpoch := fun i hi => (hepoch i hi).le
    heldLast := fun _ i hi => .inl (hepoch i hi)
    flight := fun f hf =>
      let hfi := hm.flight f hf
      { hfi with
        epochs := fun i hi => (hfi.epochs i hi).trans (Nat.le_succ _)
        header := hfi.header.imp id fun ho i hi => hold (ho i hi) } }

/-- The epochs before `e` are gone. -/
theorem popBefore_ptrs {e : ℕ} : ∀ (n : ℕ) (h : Header), h.ptrs.length ≤ n → h.wrap = 0 →
    (popBefore e n h).ptrs = h.ptrs.dropWhile (fun p => p.1 < e) ∧ (popBefore e n h).wrap = 0
  | 0, h, hl, hw => by
    have : h.ptrs = [] := length_eq_zero_iff.mp (Nat.le_zero.mp hl)
    simp [popBefore, this, hw]
  | n + 1, h, hl, hw => by
    rw [popBefore]
    cases hp : h.ptrs with
    | nil => simp [hp, hw]
    | cons p ps =>
      by_cases hlt : p.1 < e
      · have hpop : h.pop.ptrs = ps ∧ h.pop.wrap = 0 := by
          cases ps with
          | nil => simp [pop, hp, hw]
          | cons q rest =>
            simp only [pop, hp]
            refine ⟨trivial, ?_⟩
            split_ifs
            · rfl
            · exact hw
        have ih := popBefore_ptrs (e := e) n h.pop (by rw [hpop.1]; simpa [hp] using hl) hpop.2
        rw [hpop.1] at ih
        simpa [dropWhile_cons, hlt] using ih
      · simp [hlt, hp, hw]

theorem dropBefore_fst {e : ℕ} : ∀ (q : List Entry) (cq : List (Option Entry)) (wq : List Entry),
    (dropBefore e q cq wq).1 = q.dropWhile (fun x => x.epoch < e)
  | [], _, _ => rfl
  | x :: q, cq, wq => by
    rw [dropBefore]
    by_cases hlt : x.epoch < e
    · rw [if_pos hlt, dropBefore_fst]
      simp [hlt]
    · rw [if_neg hlt]
      simp [hlt]

/-- What is left of an ascending list is not below `e`. -/
theorem dropWhile_ge {α : Type} (k : α → ℕ) {e : ℕ} {l : List α} (hs : l.Pairwise (k · ≤ k ·)) :
    ∀ x ∈ l.dropWhile (fun x => k x < e), e ≤ k x := by
  induction l with
  | nil => simp
  | cons y l ih =>
    rw [dropWhile_cons]
    split_ifs with hy
    · exact ih hs.of_cons
    · intro x hx
      have hy' : e ≤ k y := by simpa using hy
      rcases mem_cons.mp hx with rfl | hx
      · exact hy'
      · exact hy'.trans (rel_of_pairwise_cons hs hx)

/-- The header after a commit of epoch `e`, if something is left. -/
theorem HeaderInv.popped (hh : HeaderInv c h) {e : ℕ} {phase : Phase} (hph : phase ≠ .idle)
    (hp : Pointers e phase h) {h' : Header} (hp' : h'.ptrs = h.ptrs.dropWhile (fun p => p.1 < e))
    (hw : h'.wrap = 0) (hne : h'.ptrs ≠ []) :
    HeaderInv c h' ∧ Pointers e .idle h' ∧ (∀ e' ∈ h'.epochs, e ≤ e') ∧ (∀ e' ∈ h'.epochs, e' ∈ h.epochs) := by
  have hsub : h'.ptrs.Sublist h.ptrs := by rw [hp']; exact dropWhile_sublist _
  have hsorted : h.ptrs.Pairwise (fun p q => p.1 ≤ q.1) :=
    (pairwise_map.mp hh.sorted).imp fun hlt => hlt.le
  have hge : ∀ p ∈ h'.ptrs, e ≤ p.1 := by
    rw [hp']
    exact dropWhile_ge (fun p : ℕ × ℕ => p.1) hsorted
  have hinv : HeaderInv c h' :=
    ⟨hw, hh.sorted.sublist (hsub.map _), fun p hp => hh.place p (hsub.subset hp)⟩
  obtain ⟨ps, p, hpl⟩ := (eq_nil_or_concat' h'.ptrs).resolve_left hne
  have hlast : e ≤ h'.lastEpoch := by
    rw [lastEpoch_eq hpl]
    exact hge p (by rw [hpl]; simp)
  have hlen := hsub.length_le
  refine ⟨hinv, ?_, fun e' he' => ?_, fun e' he' => ?_⟩
  · simp only [Pointers]
    have hcases : h.ptrs.length ≤ 3 ∨ (h.ptrs.length ≤ 4 ∧ h.lastEpoch = e) := by
      cases phase with
      | idle => exact absurd rfl hph
      | started | written =>
        simp only [Pointers] at hp
        omega
    rcases hcases with hl | ⟨-, hle⟩
    · omega
    · -- only the pointer of `e` itself is left
      have hps : ps = [] := by
        by_contra hc
        obtain ⟨q, hq⟩ := exists_mem_of_ne_nil ps hc
        have hs := hinv.sorted
        simp only [epochs, hpl, map_append, map_cons, map_nil] at hs
        have hlt : q.1 < p.1 := (pairwise_append.mp hs).2.2 q.1 (mem_map_of_mem hq) p.1 (by simp)
        have h1 := hge q (by rw [hpl]; exact mem_append_left _ hq)
        have h2 := hh.le_last (e := p.1) (mem_map_of_mem (hsub.subset (by rw [hpl]; simp)))
        omega
      left
      rw [hpl, hps]
      simp
  · obtain ⟨q, hq, rfl⟩ := mem_map.mp he'
    exact hge q hq
  · obtain ⟨q, hq, rfl⟩ := mem_map.mp he'
    exact mem_map_of_mem (hsub.subset hq)

/-- The queue after a commit of epoch `e`. -/
theorem Queue.finish {e : ℕ} {phase : Phase} {q : List Entry} (h : Queue e phase q) :
    Queue e .idle (q.dropWhile fun x => x.epoch < e) := by
  have hsub := dropWhile_sublist (l := q) fun x => decide (x.epoch < e)
  have hge := dropWhile_ge (fun x : Entry => x.epoch) (e := e) h.sorted
  exact {
    le := fun x hx => h.le x (hsub.subset hx)
    ge := fun x hx => h.ge x (hsub.subset hx)
    idle := fun _ x hx => le_antisymm (h.le x (hsub.subset hx)) (hge x hx)
    pos := fun x hx => h.pos x (hsub.subset hx)
    sorted := h.sorted.sublist hsub }

/-- The memory after a commit: the header `h` and the position `w`. -/
def finished (m : Mem) (h : Header) (w : ℕ) : Mem :=
  let d := dropBefore m.superEpoch m.writeq m.commitq m.writingq
  { m with
    phase := .idle, header := h, writePos := w, mustWriteHeader := true
    writeq := d.1, commitq := d.2.1, writingq := [] }

theorem old_finished (hm : RingMem c held m) {w : ℕ} (hh : ∀ e ∈ h.epochs, m.superEpoch ≤ e)
    {x : Entry} (hx : x.epoch < m.superEpoch) : Old (finished m h w) x := by
  refine ⟨fun e he => hx.trans_le (hh e he), fun y hy => ?_, ?_⟩
  · rw [finished, dropBefore_fst] at hy
    rw [hm.queue.finish.idle rfl y hy]
    exact hx
  · split_ifs
    · exact hx.trans (Nat.lt_succ_self _)
    · exact hx

theorem finished_ring (hm : RingMem c held m) {w : ℕ} (hh : HeaderInv c h)
    (hp : Pointers m.superEpoch .idle h) (hw : Place c w) (hle : w ≤ m.writePos)
    (hheld : ∀ i ∈ held, i.stamp + i.size ≤ w ∨ Old (finished m h w) i.entry)
    (hflight : ∀ f, m.flight = some f → (h = f.oldHeader ∧ w = f.start) ∨
      ∀ i ∈ f.bl, Old (finished m h w) i.entry) : RingMem c held (finished m h w) where
  header := hh
  pointers := hp
  epoch := hm.epoch
  queue := by
    have := hm.queue.finish
    rwa [← dropBefore_fst m.writeq m.commitq m.writingq] at this
  full hf := by
    simp only [finished, dropBefore_fst, hm.full hf, dropWhile_nil]
  usable hi := absurd rfl hi
  place := hw
  held := hheld
  heldEpoch := hm.heldEpoch
  heldLast hi := absurd rfl hi
  flight f hf := let hfi := hm.flight f hf
    { hfi with
      start := hle.trans hfi.start
      pos := fun p hp => ⟨hle.trans (hfi.pos p hp).1, (hfi.pos p hp).2⟩
      header := hflight f hf
      writingq := .inr rfl }

/-- **The end of a commit.** -/
theorem commitFinish_ring (htop : Place c c.top) (hm : RingMem c held m) (hph : m.phase = .written)
    (hn : NotInWrite m m.superEpoch) :
    ∃ h w q, commitEpochFinish c { m with phase := .idle } m.superEpoch = some (finished m h w, q) ∧
      RingMem c held (finished m h w) := by
  have hfin : ∀ {h w}, trim c { m with phase := .idle } m.superEpoch =
      some { m with phase := .idle, header := h, writePos := w } →
      ∃ q, commitEpochFinish c { m with phase := .idle } m.superEpoch = some (finished m h w, q) := by
    intro h w ht
    rw [commitEpochFinish, ht]
    exact ⟨_, rfl⟩
  have hne : m.phase ≠ .idle := by simp [hph]
  by_cases hf : m.full = true
  · -- a full journal starts afresh, and its epochs are not listed again
    obtain ⟨q, hq⟩ := hfin (h := .clear) (w := c.top) (by simp [trim, hf])
    refine ⟨_, _, q, hq, finished_ring hm ⟨rfl, by simp [clear, epochs], by simp [clear]⟩
      (by simp [Pointers, clear]) htop hm.place.top (fun i hi => .inr ?_) fun f hf' => .inr fun i hi => ?_⟩
    · refine ⟨by simp [finished, clear, epochs], ?_, ?_⟩
      · simp [finished, dropBefore_fst, hm.full hf]
      · have := hm.heldEpoch i hi
        simp [finished, hf, clear]
        omega
    · refine ⟨by simp [finished, clear, epochs], ?_, ?_⟩
      · simp [finished, dropBefore_fst, hm.full hf]
      · have := (hm.flight f hf').epochs i hi
        simp [finished, hf, clear]
        omega
  · obtain ⟨hptrs, hwrap⟩ := popBefore_ptrs (e := m.superEpoch) _ m.header le_rfl hm.header.wrap
    set h := popBefore m.superEpoch m.header.ptrs.length m.header with hh
    by_cases hnil : h.ptrs = []
    · -- starting fresh
      have hpush : h.push m.superEpoch c.top = some ⟨[(m.superEpoch, c.top)], 0⟩ := by
        simp [push, hnil, hwrap]
      obtain ⟨q, hq⟩ := hfin (h := ⟨[(m.superEpoch, c.top)], 0⟩) (w := c.top) (by
        simp [trim, hf, ← hh, hnil, hpush])
      have hall : ∀ e ∈ m.header.epochs, e < m.superEpoch := by
        intro e he
        obtain ⟨p, hp, rfl⟩ := mem_map.mp he
        rw [hptrs] at hnil
        simpa using (dropWhile_eq_nil_iff.mp hnil) p hp
      have hlist : ∀ e ∈ (⟨[(m.superEpoch, c.top)], 0⟩ : Header).epochs, m.superEpoch ≤ e := by
        simp [epochs]
      have hlast : m.header.lastEpoch < m.superEpoch := by
        rcases eq_nil_or_concat' m.header.ptrs with hn | ⟨ps, p, hp⟩
        · simpa [lastEpoch, hn] using hm.epoch
        · rw [lastEpoch_eq hp]
          exact hall _ (mem_map_of_mem (by rw [hp]; simp))
      refine ⟨_, _, q, hq, finished_ring hm ⟨rfl, by simp [epochs], by simpa using htop⟩
        (by simp [Pointers]) htop hm.place.top (fun i hi => .inr (old_finished hm hlist ?_))
        fun f hf' => .inr fun i hi => old_finished hm hlist ?_⟩
      · have := hm.heldLast hne i hi
        omega
      · rcases (hm.flight f hf').header with ⟨hsame, -⟩ | ho
        · have := (hm.flight f hf').last i hi
          rw [← hsame] at this
          omega
        · have := (ho i hi).next
          rwa [if_neg (hm.usable hne)] at this
    · obtain ⟨hinv, hp, hge, hsub⟩ := hm.header.popped hne hm.pointers hptrs hwrap hnil
      obtain ⟨q, hq⟩ := hfin (h := h) (w := m.writePos) (by simp [trim, hf, ← hh, hnil])
      have hold : ∀ {x : Entry}, Old m x → Old (finished m h m.writePos) x := by
        intro x ho
        have := ho.next
        rw [if_neg (hm.usable hne)] at this
        exact old_finished hm hge this
      refine ⟨_, _, q, hq, finished_ring hm hinv hp hm.place le_rfl
        (fun i hi => (hm.held i hi).imp id hold) fun f hf' => ?_⟩
      rcases (hm.flight f hf').header with ⟨hsame, hw⟩ | ho
      · rcases hn with hn | hn | hn
        · exact absurd hn hf
        · -- nothing was popped
          left
          refine ⟨?_, hw⟩
          rw [← hsame]
          have hdrop : m.header.ptrs.dropWhile (fun p => p.1 < m.superEpoch) = m.header.ptrs := by
            cases hp : m.header.ptrs with
            | nil => rfl
            | cons p ps =>
              have := hn p.1 (by simp [epochs, hp])
              rw [dropWhile_cons, if_neg (by simpa using this)]
          exact Header.ext (hptrs.trans hdrop) (hwrap.trans hm.header.wrap.symm)
        · exact .inr fun i hi => old_finished hm hge (hn f hf' i hi)
      · exact .inr fun i hi => hold (ho i hi)

theorem top_place : Place c c.top := by
  refine ⟨le_rfl, ?_⟩
  unfold Config.top Config.alignment
  split_ifs
  · have := Nat.le_of_dvd (by norm_num) c.dvd
    omega
  · decide

theorem top_pos : 0 < c.top := by
  unfold Config.top
  split_ifs
  · exact Nat.pos_of_dvd_of_pos c.dvd (by norm_num)
  · norm_num

/-! ### Mounting -/

include hc in
theorem readEntries_ring (hf : ∀ q x, s.file q = some x → q + x.size < c.maxSize)
    (hw : h.wrap = 0) : ∀ (fuel pos : ℕ), Place c pos →
    ∃ es last, readEntries c h s.file fuel pos = some (es, last) ∧ pos ≤ last ∧ Place c last ∧
      ∀ i ∈ es, i.stamp + i.size ≤ last ∧ s.file i.stamp = some i.entry ∧ i.size = i.entry.size
  | 0, pos, hp => ⟨[], pos, rfl, le_rfl, hp, by simp⟩
  | fuel + 1, pos, hp => by
    have hne : pos ≠ h.wrap := by
      have := top_pos (c := c)
      have := hp.top
      omega
    rw [readEntries, wrapPos, if_pos hne, bind_some]
    cases hx : s.file pos with
    | none => exact ⟨[], pos, rfl, le_rfl, hp, by simp⟩
    | some x =>
      have hlt := hf pos x hx
      obtain ⟨hge, hpl⟩ := roundUp2_place (c := c) (n := pos + x.size) (by omega)
        (hp.top.trans (Nat.le_add_right _ _))
      obtain ⟨es, last, hr, hle, hlast, hes⟩ := readEntries_ring hf hw fuel _ hpl
      refine ⟨⟨pos, x.size, x⟩ :: es, last, by simp [hr], by omega, hlast, fun i hi => ?_⟩
      rcases mem_cons.mp hi with rfl | hi
      · exact ⟨hge.trans hle, hx, rfl⟩
      · exact hes i hi

/-- `super_epoch` after a replay. -/
theorem replay_cons {x e e' : ℕ} {es : List ℕ} (h : Superblock.replay e (x :: es) = some e') :
    ∃ e₁, Superblock.replay e₁ es = some e' ∧ x ≤ e₁ ∧ e ≤ e₁ ∧ (e₁ = e ∨ e₁ = x) := by
  rw [Superblock.replay] at h
  by_cases hlt : x < e
  · exact ⟨e, (if_pos hlt).symm.trans h, hlt.le, le_rfl, .inl rfl⟩
  rw [if_neg hlt] at h
  by_cases hx : x = e + 1
  · simp only [hx, if_true] at h
    exact ⟨e + 1, h, hx.le, e.le_succ, .inr hx.symm⟩
  · simp only [hx, if_false] at h
    obtain ⟨hxe, h⟩ := ite_none_right_eq_some.mp h
    exact ⟨e, h, hxe.le, le_rfl, .inl rfl⟩

theorem replay_bound : ∀ {es : List ℕ} {e e' : ℕ}, Superblock.replay e es = some e' →
    e ≤ e' ∧ (∀ x ∈ es, x ≤ e') ∧ (e' = e ∨ e' ∈ es)
  | [], e, e', h => by
    cases h
    simp
  | x :: es, e, e', h => by
    obtain ⟨e₁, h, hx, he, hone⟩ := replay_cons h
    obtain ⟨h1, h2, h3⟩ := replay_bound h
    refine ⟨he.trans h1, forall_mem_cons.mpr ⟨hx.trans h1, h2⟩, ?_⟩
    rcases h3 with rfl | h3
    · exact hone.imp_right fun hx => mem_cons.mpr (.inl hx)
    · exact .inr (mem_cons_of_mem x h3)

theorem openPos_place (hh : HeaderInv c h) {e pos : ℕ} (ho : openPos c h e = some pos) :
    Place c pos := by
  unfold openPos at ho
  split_ifs at ho
  · cases ho
    exact top_place
  · obtain ⟨p, hp, rfl⟩ := map_eq_some_iff.mp ho
    exact hh.place p ((takeWhile_subset _) (mem_of_find?_eq_some hp))

include hc in
/-- **A mount.** -/
theorem mount_ring (h : Ring c s) (hfew : FewPointers c s) {s' : State} (hs : mount c s = some s') :
    Ring c s' := by
  obtain ⟨⟨pos, es, last⟩, hr, hs⟩ := bind_eq_some_iff.mp hs
  obtain ⟨pos', ho, hr⟩ := bind_eq_some_iff.mp hr
  have hpl := openPos_place h.header ho
  obtain ⟨es', last', hre, hle, hlast, hes⟩ := readEntries_ring hc h.file h.header.wrap c.maxSize pos' hpl
  rw [hre] at hr
  cases hr
  obtain ⟨se, hse, rfl⟩ := map_eq_some_iff.mp hs
  obtain ⟨hb, hall, hin⟩ := replay_bound hse
  have hne : last ≠ 0 := by
    have := top_pos (c := c)
    have := hlast.top
    omega
  refine ⟨h.ok, h.epoch, h.header, h.file, fun m hm => ?_⟩
  cases hm
  have hitem : ∀ i ∈ s.held.filter (fun i => i.stamp + i.size ≤ pos ∧ i.entry.epoch < s.sbEpoch) ++ es,
      i.stamp + i.size ≤ last ∧ i.entry.epoch ≤ se := by
    intro i hi
    rcases mem_append.mp hi with hi | hi
    · have := (mem_filter.mp hi).2
      simp only [decide_eq_true_eq] at this
      omega
    · exact ⟨(hes i hi).1, hall _ (mem_map_of_mem hi)⟩
  exact {
    header := h.header
    pointers := by
      rcases hfew with hl | ⟨hl, hsb, hfile⟩
      · exact .inl hl
      · refine .inr ⟨hl, ?_⟩
        rcases hin with rfl | hin
        · exact hsb
        · obtain ⟨i, hi, rfl⟩ := mem_map.mp hin
          have := (hes i hi).2.1
          have hlt := h.file _ _ this
          exact hfile i.stamp (by omega) i.entry this
    epoch := h.epoch.trans_le hb
    queue := ⟨by simp, by simp, by simp, by simp, by simp⟩
    full := by simp
    usable := by simp
    place := by
      simp only [ne_eq, hne, not_false_eq_true, if_true]
      exact hlast
    held := fun i hi => .inl (by
      simp only [ne_eq, hne, not_false_eq_true, if_true]
      exact (hitem i hi).1)
    heldEpoch := fun i hi => (hitem i hi).2
    heldLast := by simp
    flight := by simp }

/-! ### Every run -/

/-- An entry is queued. -/
theorem submit_ring (hm : RingMem c held m) (data : Bytes) (cq : List (Option Entry)) :
    RingMem c held { m with
      commitq := cq
      writeq := if m.full then m.writeq else m.writeq ++ [⟨m.superEpoch, data⟩] } := by
  set m' : Mem := { m with
    commitq := cq
    writeq := if m.full then m.writeq else m.writeq ++ [⟨m.superEpoch, data⟩] } with hm'
  have hmem : ∀ {x}, x ∈ m'.writeq → x ∈ m.writeq ∨ (m.full = false ∧ x.epoch = m.superEpoch) := by
    intro x hx
    by_cases hf : m.full = true
    · left
      simpa [hm', hf] using hx
    · have hx' : x ∈ m.writeq ∨ x = ⟨m.superEpoch, data⟩ := by simpa [hm', hf] using hx
      exact hx'.imp id fun hx' => ⟨by simpa using hf, by rw [hx']⟩
  have hold : ∀ {x}, Old m x → Old m' x := by
    intro x ho
    refine ⟨ho.listed, fun y hy => ?_, ho.next⟩
    rcases hmem hy with hy | ⟨hf, hy⟩
    · exact ho.queued y hy
    · have := ho.next
      rw [if_neg (by simp [hf])] at this
      rwa [hy]
  exact { hm with
    queue := {
      le := fun x hx => (hmem hx).elim (hm.queue.le x) fun h => h.2.le
      ge := fun x hx => (hmem hx).elim (hm.queue.ge x) fun h => by rw [h.2]; exact Nat.le_succ _
      idle := fun hi x hx => (hmem hx).elim (hm.queue.idle hi x) fun h => h.2
      pos := fun x hx => (hmem hx).elim (hm.queue.pos x) fun h => by rw [h.2]; exact hm.epoch
      sorted := by
        by_cases hf : m.full = true
        · simpa [hm', hf] using hm.queue.sorted
        · simp only [hm', hf]
          refine pairwise_append.mpr ⟨hm.queue.sorted, pairwise_singleton _ _, fun x hx y hy => ?_⟩
          rw [mem_singleton.mp hy]
          exact hm.queue.le x hx }
    full := fun hf => by
      have hf' : m.full = true := hf
      simpa [hm', hf'] using hm.full hf'
    held := fun i hi => (hm.held i hi).imp id hold
    flight := fun f hf =>
      let hfi := hm.flight f hf
      { hfi with header := hfi.header.imp id fun ho i hi => hold (ho i hi) } }

theorem superWritten_ring (hm : RingMem c held m) (hph : m.phase = .started) :
    RingMem c held { m with phase := .written } := by
  have hp := hm.pointers
  have hu := hm.usable
  have hl := hm.heldLast
  rw [hph] at hp hu hl
  exact { hm with
    pointers := hp
    queue := { hm.queue with idle := fun hi => by cases hi }
    usable := fun _ => hu (by simp)
    held := fun i hi => (hm.held i hi).imp id fun ho => { ho with }
    heldLast := fun _ => hl (by simp)
    flight := fun f hf =>
      let hfi := hm.flight f hf
      { hfi with header := hfi.header.imp id fun ho i hi => { ho i hi with } } }

include hc in
/-- **One step keeps the invariant.** -/
theorem step_ring {s' : State} {a : Act} (h : Ring c s) (hok : Unwrapped c s a) (hs : step c s a = some s') :
    Ring c s' := by
  unfold step at hs
  rw [if_neg (by simp [h.ok])] at hs
  split at hs
  · exact mount_ring hc h hok hs
  · next data oncommit m hm =>
    cases hs
    exact ⟨h.ok, h.epoch, h.header, h.file, fun m' hm' => by cases hm'; exact submit_ring (h.mem m hm) _ _⟩
  · next m hm =>
    obtain ⟨⟨hfl, hq⟩, hs⟩ := ite_none_right_eq_some.mp hs
    have hi := h.mem m hm
    have hf : m.full = false := by
      by_contra hc
      exact hq (hi.full (by simpa using hc))
    obtain ⟨m', hp, hr⟩ := prepare_ring hc hi (by simpa using hfl) hf (hok m hm)
    rw [hp] at hs
    cases hs
    exact ⟨h.ok, h.epoch, h.header, h.file, fun m'' hm'' => by cases hm''; exact hr⟩
  · next m hm =>
    split at hs
    · next f hf =>
      obtain ⟨-, ⟨⟩⟩ := ite_none_right_eq_some.mp hs
      exact ⟨h.ok, h.epoch, h.header, h.file, fun m' hm' => by cases hm'; exact seek_ring (h.mem m hm) hf⟩
    · cases hs
  · next m hm =>
    split at hs
    · next f hf =>
      split at hs
      · next p hp =>
        cases hs
        exact doWriteDone_ring hc h hm hf p
      · cases hs
    · cases hs
  · next m hm =>
    obtain ⟨hph, ⟨⟩⟩ := ite_none_right_eq_some.mp hs
    exact ⟨h.ok, h.epoch, h.header, h.file, fun m' hm' => by cases hm'; exact commitStart_ring (h.mem m hm) hph⟩
  · next m hm =>
    obtain ⟨hph, ⟨⟩⟩ := ite_none_right_eq_some.mp hs
    have hi := h.mem m hm
    exact ⟨h.ok, hi.epoch, h.header, h.file, fun m' hm' => by cases hm'; exact superWritten_ring hi hph⟩
  · next m hm =>
    obtain ⟨hph, hs⟩ := ite_none_right_eq_some.mp hs
    obtain ⟨hd, w, q, hfin, hr⟩ := commitFinish_ring top_place (h.mem m hm) hph (hok m hm)
    rw [hfin] at hs
    cases hs
    exact ⟨h.ok, h.epoch, h.header, h.file, fun m' hm' => by cases hm'; exact hr⟩
  · next header old new m hm =>
    cases hs
    unfold crashed
    split
    · exact ⟨h.ok, h.epoch, h.header, h.file, fun m' hm' => by cases hm'⟩
    · next f hf =>
      have hfi := (h.mem m hm).flight f hf
      have hhead : HeaderInv c (if header then f.hbp.getD s.header else s.header) := by
        split_ifs
        · exact hbp_ring h.header hfi
        · exact h.header
      dsimp only
      split
      · exact ⟨h.ok, h.epoch, hhead, h.file, fun m' hm' => by cases hm'⟩
      · next p hp =>
        exact ⟨h.ok, h.epoch, hhead, persist_ring h.file hfi p old new, fun m' hm' => by cases hm'⟩
  · cases hs

end steps

theorem init_ring : Ring c init where
  ok := rfl
  epoch := zero_lt_one
  header := ⟨rfl, by simp [init, clear, epochs], by simp [init, clear]⟩
  file := by simp [init]
  mem := by simp [init]

/-- The write in progress stays in the journal: its bytes lie between the top and the end,
apart from the entries of the epochs that the header lists, and if the header was
wrapped where it would have started, it is where `read_entry` jumps to. -/
def InRing (c : Config) (s : State) : Prop :=
  ∀ m, s.mem = some m → ∀ f, m.flight = some f → ∀ p, f.pos = some p →
    (∀ b, p ≤ b → b < p + length f.bl → c.top ≤ b ∧ b < c.maxSize) ∧
    (∀ i ∈ s.held, i.entry.epoch ∈ m.header.epochs → apart p (length f.bl) i.stamp i.size = true) ∧
    (f.bl ≠ [] → f.start = m.header.wrap → wrapPos m.header f.start = some p)

/-- A journal of 400 bytes. -/
def tiny : Config where
  directio := false
  blockSize := 4096
  dvd := by decide
  maxSize := 400
  maxWriteEntries := 10
  maxWriteBytes := 0

/-- An entry of `n` bytes is submitted and written, up to the `seek`. -/
def seekRun (n : ℕ) : List Act := [.submit (List.replicate n 0) true, .prepare, .seek]

/-- Entries of the epochs 1 and 2 are written, and epoch 1 is committed. -/
def commitRun (n k : ℕ) : List Act :=
  .mount :: seekRun n ++ [.writeDone, .commitStart] ++ seekRun k ++
    [.writeDone, .superWritten, .commitFinish]

/-- How a run ends: where the write in progress starts, and its length. -/
def writing (s : State) : Option (ℕ × ℕ) :=
  s.mem.bind fun m => m.flight.bind fun f => f.pos.map fun p => (p, length f.bl)

end FileJournal
end Ebofs
end Ceph
