import Mongo.Bson.Validate

/-!
# The BSON grammar

What a well-formed BSON document is, stated over positions in a byte memory and independent of
the validator: a document is an `int32` size, a list of elements and a zero byte, and the size
is the number of bytes from the size to the zero byte inclusive.  An element is a defined type
byte, a NUL-terminated field name and a value whose shape the type fixes.  Objects and arrays
nest documents; a `CodeWScope` nests a string and a document under a size of its own.

`Derives maxDepth bytes ph frames p q` says that `[p, q)` is a phrase `ph` met with `frames`
frames open: for a document, the frames outside it; for its elements, those and its own.  The
validator opens a frame per object and per `CodeWScope`, and refuses to open an object while
more than `maxDepth` are open, so the grammar bounds documents by the same count.

* `Derives.le` — every phrase lies in order, an element and a document are never empty.
* `CString.unique` — a C string ends at its first zero.
-/

namespace Mongo

/-- A C string from `p` whose terminating zero is at `x`. -/
def CString (bytes : ℕ → UInt8) (p x : ℕ) : Prop :=
  p ≤ x ∧ bytes x = 0 ∧ ∀ i, p ≤ i → i < x → bytes i ≠ 0

/-- A string value from `v` to `r`: a positive `int` size, then that many bytes, the last one
zero. -/
def Utf8String (bytes : ℕ → UInt8) (v r : ℕ) : Prop :=
  0 < readInt32 bytes v ∧ r = v + 4 + (readInt32 bytes v).toNat ∧ bytes (r - 1) = 0

/-- The value from `v` to `r` of a type that nests no document. -/
def LeafValue (bytes : ℕ → UInt8) : BSONType → ℕ → ℕ → Prop
  | .minKey, v, r | .maxKey, v, r | .jstNULL, v, r | .undefined, v, r => r = v
  | .jstOID, v, r => r = v + 12
  | .numberInt, v, r => r = v + 4
  | .bool, v, r => (bytes v = 0 ∨ bytes v = 1) ∧ r = v + 1
  | .numberDouble, v, r | .numberLong, v, r | .bsonTimestamp, v, r | .date, v, r => r = v + 8
  | .numberDecimal, v, r => r = v + 16
  | .dbRef, v, r => ∃ s, Utf8String bytes v s ∧ r = s + 12
  | .regEx, v, r => ∃ x y, CString bytes v x ∧ CString bytes (x + 1) y ∧ r = y + 1
  | .string, v, r | .code, v, r | .symbol, v, r => Utf8String bytes v r
  | .binData, v, r =>
      0 ≤ readInt32 bytes v ∧ readInt32 bytes v < 2147483647 ∧
        r = v + 5 + (readInt32 bytes v).toNat
  | .eoo, _, _ | .object, _, _ | .array, _, _ | .codeWScope, _, _ => False

/-- The phrases of the grammar. -/
inductive Phrase
  | document | elements | element
  deriving DecidableEq, Repr

/-- `[p, q)` is a phrase `ph` with `frames` frames open. -/
inductive Derives (maxDepth : ℕ) (bytes : ℕ → UInt8) : Phrase → ℕ → ℕ → ℕ → Prop
  /-- A document: its size, its elements with one more frame open, and a zero byte.  It may
  open only while at most `maxDepth` frames are. -/
  | document {f p q : ℕ} : f ≤ maxDepth → p + 5 ≤ q → readInt32 bytes p = ((q - p : ℕ) : ℤ) →
      bytes (q - 1) = 0 → Derives maxDepth bytes .elements (f + 1) (p + 4) (q - 1) →
      Derives maxDepth bytes .document f p q
  | nil {g p : ℕ} : Derives maxDepth bytes .elements g p p
  | cons {g p r e : ℕ} : Derives maxDepth bytes .element g p r →
      Derives maxDepth bytes .elements g r e → Derives maxDepth bytes .elements g p e
  /-- An element whose value nests no document. -/
  | leaf {g i x r : ℕ} {type : BSONType} : BSONType.ofByte (bytes i) = some type →
      CString bytes (i + 1) x → LeafValue bytes type (x + 1) r →
      Derives maxDepth bytes .element g i r
  /-- An object or array element: a document. -/
  | embedded {g i x r : ℕ} {type : BSONType} : BSONType.ofByte (bytes i) = some type →
      (type = .object ∨ type = .array) → CString bytes (i + 1) x →
      Derives maxDepth bytes .document g (x + 1) r → Derives maxDepth bytes .element g i r
  /-- A `CodeWScope` element: a size covering itself, a string and a scope document, the
  `CodeWScope` holding a frame of its own. -/
  | codeWScope {g i x s r : ℕ} : BSONType.ofByte (bytes i) = some .codeWScope →
      CString bytes (i + 1) x → readInt32 bytes (x + 1) = ((r - (x + 1) : ℕ) : ℤ) →
      Utf8String bytes (x + 5) s → Derives maxDepth bytes .document (g + 1) s r →
      Derives maxDepth bytes .element g i r

variable {maxDepth : ℕ} {bytes : ℕ → UInt8}

/-- A C string ends at its first zero. -/
theorem CString.unique {p x y : ℕ} (hx : CString bytes p x) (hy : CString bytes p y) : x = y := by
  obtain ⟨hpx, hx0, hxnz⟩ := hx
  obtain ⟨hpy, hy0, hynz⟩ := hy
  rcases lt_trichotomy x y with hlt | heq | hlt
  · exact absurd hx0 (hynz x hpx hlt)
  · exact heq
  · exact absurd hy0 (hxnz y hpy hlt)

theorem Utf8String.lt {v r : ℕ} (h : Utf8String bytes v r) : v + 4 < r := by
  obtain ⟨hpos, rfl, -⟩ := h
  omega

/-- A leaf value never ends before it starts. -/
theorem LeafValue.le {type : BSONType} {v r : ℕ} (h : LeafValue bytes type v r) : v ≤ r := by
  cases type with
  | dbRef =>
      obtain ⟨s, hs, rfl⟩ := h
      have := hs.lt
      omega
  | regEx =>
      obtain ⟨x, y, hx, hy, rfl⟩ := h
      have := hx.1
      have := hy.1
      omega
  | string | code | symbol =>
      have := Utf8String.lt h
      omega
  | binData =>
      obtain ⟨-, -, rfl⟩ := h
      omega
  | bool =>
      obtain ⟨-, rfl⟩ := h
      omega
  | eoo | object | array | codeWScope => exact h.elim
  | _ =>
      simp only [LeafValue] at h
      omega

/-- **Phrases lie in order**: elements run forward, an element takes at least its type byte
and name, a document at least five bytes. -/
theorem Derives.le {ph : Phrase} {f p q : ℕ} (h : Derives maxDepth bytes ph f p q) :
    p ≤ q ∧ (ph = .element → p < q) ∧ (ph = .document → p + 5 ≤ q) := by
  induction h with
  | document _ hq => exact ⟨by omega, by simp, fun _ => hq⟩
  | nil => exact ⟨le_refl _, by simp, by simp⟩
  | cons _ _ ih₁ ih₂ => exact ⟨le_trans ih₁.1 ih₂.1, by simp, by simp⟩
  | leaf _ hx hv =>
      have := hx.1
      have := hv.le
      exact ⟨by omega, fun _ => by omega, by simp⟩
  | embedded _ _ hx _ ih =>
      have := hx.1
      exact ⟨by omega, fun _ => by omega, by simp⟩
  | codeWScope _ hx _ hs _ ih =>
      have := hx.1
      have := hs.lt
      exact ⟨by omega, fun _ => by omega, by simp⟩

end Mongo
