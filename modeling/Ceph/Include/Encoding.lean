/-
# Encoding into a bufferlist

`_encode` and `_decode` of `include/buffer.h`. What C++ overloads over types is
here a function of a `Ty`: the raw base types, `string`, `bufferptr`,
`bufferlist`, and the containers over them. A decoder reads list `i` at `off`, an
`int`, through the cached position of the list.

A `bufferptr` or `bufferlist` in a value is pointers into raw buffers; what they
point at is shared by the encoding, not copied, and a decoded one points into the
list that it was read from. `set` and `map` are in the order of their keys, which
are compared by `Less`.
-/
import Ceph.Include.Buffer

namespace Ceph
namespace Buffer

open Wire (Bytes)

variable {n : ℕ}

/-! ### Types and values -/

/-- The types that are encoded; `base k` is one of `k + 1` bytes. -/
inductive Ty
  | base (k : ℕ)
  | string
  | ptr
  | buffer
  | list (t : Ty)
  | deque (t : Ty)
  | set (t : Ty)
  | vector (t : Ty)
  | map (k v : Ty)
  deriving DecidableEq

/-- The values of a type, with `P` for a `bufferptr` and `B` for a `bufferlist`. -/
def Val (P B : Type) : Ty → Type
  | .base k => { b : Bytes // b.length = k + 1 }
  | .string => Bytes
  | .ptr => P
  | .buffer => B
  | .list t => List (Val P B t)
  | .deque t => List (Val P B t)
  | .set t => List (Val P B t)
  | .vector t => List (Val P B t)
  | .map k v => List (Val P B k × Val P B v)

/-- A value as the program has it: a `bufferlist` is its segments. -/
abbrev Value : Ty → Type := Val Ptr (List Ptr)

/-- A value with the bytes that its pointers point at. -/
abbrev View : Ty → Type := Val Bytes Bytes

def Val.map {P B P' B' : Type} (f : P → P') (g : B → B') : (t : Ty) → Val P B t → Val P' B' t
  | .base _, b => b
  | .string, b => b
  | .ptr, p => f p
  | .buffer, b => g b
  | .list t, xs => List.map (Val.map f g t) xs
  | .deque t, xs => List.map (Val.map f g t) xs
  | .set t, xs => List.map (Val.map f g t) xs
  | .vector t, xs => List.map (Val.map f g t) xs
  | .map k v, xs => List.map (fun p => (Val.map f g k p.1, Val.map f g v p.2)) xs

def view (raws : Raws) : (t : Ty) → Value t → View t :=
  Val.map (·.bytes raws) (fun ps => ps.flatMap (·.bytes raws))

/-- A value as a key. There is no `operator<` of a `bufferptr` or a `bufferlist` that
`std::less` could use, so a key has none. -/
abbrev Key : Ty → Type := Val Unit Unit

def key {P B : Type} : (t : Ty) → Val P B t → Key t := Val.map (fun _ => ()) (fun _ => ())

/-- `operator<` of every type. -/
structure Less where
  lt : (t : Ty) → Key t → Key t → Bool
  asymm : ∀ t a b, lt t a b → ¬ lt t b a

/-! ### Encoding -/

section encode

variable (m : Machine) (i : Fin n)

/-- `_encoderaw` -/
def encodeRaw (b : Bytes) (s : State n) : Option (State n) := append m s i b

/-- `_encoderaw` of a `uint32_t`. -/
def encode32 (k : ℕ) (s : State n) : Option (State n) := encodeRaw m i (Wire.le 4 k) s

def encodeString (b : Bytes) (s : State n) : Option (State n) :=
  (encode32 m i b.length s).bind fun s => append m s i (b.take (u32 b.length))

def encodePtr (p : Ptr) (s : State n) : Option (State n) :=
  (encode32 m i p.len s).map fun s => appendPtr s i p

/-- `length()` of the list that is encoded is the sum of its segments. -/
def encodeBuffer (ps : List Ptr) (s : State n) : Option (State n) :=
  (encode32 m i (ps.map (·.len)).sum s).map fun s => appendPtrs s i ps (ps.map (·.len)).sum

/-- One element after the other. -/
def encodeEach {α : Type} (enc : α → State n → Option (State n)) : List α → State n → Option (State n)
  | [], s => some s
  | x :: xs, s => (enc x s).bind (encodeEach enc xs)

/-- `deque`, `set`, `vector` and `map`: the size, then the elements. -/
def encodeSeq {α : Type} (enc : α → State n → Option (State n)) (xs : List α) (s : State n) : Option (State n) :=
  (encode32 m i xs.length s).bind (encodeEach enc xs)

/-- `list`: the elements are counted as they are encoded, and the count is copied in
afterwards. -/
def encodeList {α : Type} (enc : α → State n → Option (State n)) (xs : List α) (s : State n) : Option (State n) :=
  if xs ≠ [] then
    (encode32 m i 0 s).bind fun t => (encodeEach enc xs t).bind fun u =>
      copyIn u i (s.length i) (Wire.le 4 xs.length)
  else (encode32 m i 0 s).bind (encodeEach enc xs)

/-- `_encode` -/
def encode : (t : Ty) → Value t → State n → Option (State n)
  | .base _, b => encodeRaw m i b.1
  | .string, b => encodeString m i b
  | .ptr, p => encodePtr m i p
  | .buffer, ps => encodeBuffer m i ps
  | .list t, xs => encodeList m i (encode t) xs
  | .deque t, xs => encodeSeq m i (encode t) xs
  | .set t, xs => encodeSeq m i (encode t) xs
  | .vector t, xs => encodeSeq m i (encode t) xs
  | .map k v, xs => encodeSeq m i (fun p s => (encode k p.1 s).bind (encode v p.2)) xs

end encode

/-! ### Decoding -/

/-- What a decoder returns: the value, `off`, and the list it was read from. -/
abbrev Decoded (n : ℕ) (α : Type) := Option (α × ℕ × State n)

/-- `off += k`; an `int` is kept as the `unsigned` it is used as. -/
def offAdd (off k : ℕ) : ℕ := u32 (off + k)

section decode

variable (i : Fin n)

/-- `_decoderaw` -/
def decodeRaw (k : ℕ) (s : State n) (off : ℕ) : Decoded n Bytes :=
  (copy s i off k).map fun r => (r.2, offAdd off k, r.1)

/-- `_decoderaw` of a `uint32_t`. -/
def decode32 (s : State n) (off : ℕ) : Decoded n ℕ :=
  (decodeRaw i 4 s off).map fun r => (Wire.unLe r.1, r.2)

def decodeString (s : State n) (off : ℕ) : Decoded n Bytes :=
  (decode32 i s off).bind fun r =>
    (copyString r.2.2 i r.2.1 r.1).map fun q => (q.2, offAdd r.2.1 r.1, q.1)

/-- Parts of segments are appended to a list of the caller's own. -/
def putSegments (s : State n) (dest : List Node) (p : Ptr) (o l : ℕ) : Option (State n × List Node) :=
  (pushRange 0 dest p o l).map fun ns => (s, ns)

/-- `copy(off, len, s)` to a new list `s`. -/
def copySegments (s : State n) (off len : ℕ) : Option (State n × List Node) :=
  if u32 (off + len) ≤ s.length i then (toOffset s i off).bind fun t => iterCopy putSegments t i [] len else none

/-- The segments that `_decode` of a `bufferptr` or `bufferlist` copies. -/
def decodeSegments (s : State n) (off : ℕ) : Decoded n (List Node) :=
  (decode32 i s off).bind fun r =>
    (copySegments i r.2.2 r.2.1 r.1).map fun q => (q.2, offAdd r.2.1 r.1, q.1)

/-- One segment is used as it is; `buffer::copy` makes one of several, or of none. -/
def onePtr (s : State n) : List Node → State n × Ptr
  | [x] => (s, x.ptr)
  | xs =>
    let b := xs.flatMap (·.ptr.bytes s.raws)
    ({ s with raws := s.raws ++ [b] }, ⟨some s.raws.length, 0, b.length⟩)

def decodePtr (s : State n) (off : ℕ) : Decoded n Ptr :=
  (decodeSegments i s off).map fun r => ((onePtr r.2.2 r.1).2, r.2.1, (onePtr r.2.2 r.1).1)

def decodeBuffer (s : State n) (off : ℕ) : Decoded n (List Ptr) :=
  (decodeSegments i s off).map fun r => (r.1.map (·.ptr), r.2)

/-- `k` elements, each put into the container by `ins`. -/
def decodeEach {α : Type} (dec : State n → ℕ → Decoded n α) (ins : List α → α → List α) :
    ℕ → List α → State n → ℕ → Decoded n (List α)
  | 0, acc, s, off => some (acc, off, s)
  | k + 1, acc, s, off => (dec s off).bind fun r => decodeEach dec ins k (ins acc r.1) r.2.2 r.2.1

/-- A container: the size, then the elements. -/
def decodeSeq {α : Type} (dec : State n → ℕ → Decoded n α) (ins : List α → α → List α) (s : State n) (off : ℕ) :
    Decoded n (List α) :=
  (decode32 i s off).bind fun r => decodeEach dec ins r.1 [] r.2.2 r.2.1

/-- `push_back`, and the next element of a `vector`. -/
def pushBack {α : Type} (xs : List α) (x : α) : List α := xs ++ [x]

/-- `insert` of a `set`: nothing happens if there is an equivalent element. -/
def insertKey {α : Type} (lt : α → α → Bool) (x : α) : List α → List α
  | [] => [x]
  | y :: ys => if lt x y then x :: y :: ys else if lt y x then y :: insertKey lt x ys else y :: ys

/-- `m[k] = v` -/
def insertPair {α β : Type} (lt : α → α → Bool) (x : α × β) : List (α × β) → List (α × β)
  | [] => [x]
  | y :: ys =>
    if lt x.1 y.1 then x :: y :: ys else if lt y.1 x.1 then y :: insertPair lt x ys else (y.1, x.2) :: ys

/-- `_decode` -/
def decode (less : Less) : (t : Ty) → State n → ℕ → Decoded n (Value t)
  | .base k, s, off => (decodeRaw i (k + 1) s off).bind fun r =>
    if h : r.1.length = k + 1 then some (⟨r.1, h⟩, r.2) else none
  | .string, s, off => decodeString i s off
  | .ptr, s, off => decodePtr i s off
  | .buffer, s, off => decodeBuffer i s off
  | .list t, s, off => decodeSeq i (decode less t) pushBack s off
  | .deque t, s, off => decodeSeq i (decode less t) pushBack s off
  | .set t, s, off =>
    decodeSeq i (decode less t) (fun xs x => insertKey (fun a b => less.lt t (key t a) (key t b)) x xs) s off
  | .vector t, s, off => decodeSeq i (decode less t) pushBack s off
  | .map k v, s, off =>
    decodeSeq i (fun s off => (decode less k s off).bind fun r => (decode less v r.2.2 r.2.1).map fun q =>
        ((r.1, q.1), q.2))
      (fun xs x => insertPair (fun a b => less.lt k (key k a) (key k b)) x xs) s off

end decode

end Buffer
end Ceph
