import Mongo.Bson.ValidateSpec
import Mongo.Bson.Element

/-!
# Iterating a validated object

`BSONElement::size()` measures every element of the grammar exactly (`elementSize_of_derives`),
so `BSONObjIterator` visits the elements of a document of the grammar one after the other, from
its first element to its `EOO` byte (`iterateObject_of_derives`), reading nothing outside it.

With the validator's completeness and soundness this gives **safe iteration of validated
buffers** shorter than `2^31` bytes (`iterateObject_of_validateBSON`): the top-level object and
every object, array and `CodeWScope` scope nested in it iterate over elements that tile their
bodies, each measured as the validator read it.  Past `2^31` bytes it fails: the wrapped
document of `Mongo.Bson.ValidateSpec` passes validation, and its first element overruns the
object (`iterateObject_wrappedDocument`).
-/

namespace Mongo

variable {maxDepth : ℕ} {b : ℕ → UInt8} {n : ℕ}

/-! ## Reads -/

theorem byteAt_of_lt {i : ℕ} (h : i < n) : byteAt b n i = some (b i) := by
  simp [byteAt, h]

theorem uint32At_of_le {i : ℕ} (h : i + 4 ≤ n) : uint32At b n i = some (le32 b i) := by
  simp only [uint32At, Int.toNat_natCast]
  rw [if_pos ⟨by omega, by omega⟩]

/-- `strlen` of a C string that ends inside the buffer is its length. -/
theorem strlen_of_cString {p x : ℕ} (hx : CString b p x) (hxn : x < n) :
    strlen b n p = some (x - p) := by
  have hpx := hx.1
  obtain ⟨r, hr, hsome, hnone⟩ := memchrZero_spec (b := b) (n := n) p (n - p) (by omega)
  simp only [strlen, Int.natCast_nonneg, if_true, Int.toNat_natCast, hr]
  cases r with
  | none => exact absurd hx.2.1 (hnone rfl x hpx (by omega))
  | some y =>
      obtain rfl := (hsome y rfl).1.unique hx
      rfl

/-! ## The size of an element -/

/-- `valuestrsize()` and `objsize()` read the `int` at the value. -/
theorem sizeField_eq {v : ℕ} (h : v + 4 ≤ n) :
    (fun u => toInt32 u) <$> uint32At b n v = some (readInt32 b v) := by
  rw [uint32At_of_le h]
  rfl

/-- **The switch of `size()` measures every leaf value of the grammar exactly.** -/
theorem valueSize_of_leafValue {type : BSONType} {v r : ℕ} (h : LeafValue b type v r)
    (hr : r ≤ n) (hlen : r - v < 2 ^ 31) : valueSize b n (some type) v = some ((r : ℤ) - v) := by
  cases type with
  | minKey | maxKey | jstNULL | undefined | jstOID | numberInt | numberDouble | numberLong
  | bsonTimestamp | date | numberDecimal =>
      simp only [LeafValue] at h
      subst h
      simp only [valueSize, Option.pure_def, Option.some.injEq]
      push_cast
      omega
  | bool =>
      obtain ⟨-, rfl⟩ := h
      simp only [valueSize, Option.pure_def, Option.some.injEq]
      push_cast
      omega
  | string | code | symbol =>
      obtain ⟨hpos, rfl, -⟩ := h
      simp only [valueSize, sizeField_eq (n := n) (v := v) (by omega), Option.map_eq_map,
        Option.map_some, Option.some.injEq]
      push_cast
      omega
  | dbRef =>
      obtain ⟨s, ⟨hpos, rfl, -⟩, rfl⟩ := h
      simp only [valueSize, sizeField_eq (n := n) (v := v) (by omega), Option.map_eq_map,
        Option.map_some, Option.some.injEq]
      push_cast
      omega
  | binData =>
      obtain ⟨hnonneg, -, rfl⟩ := h
      simp only [valueSize, sizeField_eq (n := n) (v := v) (by omega), Option.map_eq_map,
        Option.map_some, Option.some.injEq]
      push_cast
      omega
  | regEx =>
      obtain ⟨x, y, hx, hy, rfl⟩ := h
      have hvx := hx.1
      have hxy := hy.1
      have hnext : (v : ℤ) + ((x - v : ℕ) : ℤ) + 1 = ((x + 1 : ℕ) : ℤ) := by omega
      simp only [valueSize, strlen_of_cString (n := n) hx (by omega), Option.bind_eq_bind,
        Option.bind_some, hnext, strlen_of_cString (n := n) hy (by omega), Option.pure_def]
      rw [toInt32_of_lt (by omega)]
      congr 1
      omega
  | eoo | object | array | codeWScope => exact h.elim

/-- The value of an object, array or `CodeWScope` measures what its size field says. -/
theorem valueSize_nested {type : BSONType} {v : ℕ}
    (htype : type = .object ∨ type = .array ∨ type = .codeWScope) (h : v + 4 ≤ n) :
    valueSize b n (some type) v = some (readInt32 b v) := by
  rcases htype with rfl | rfl | rfl <;> exact sizeField_eq h

/-- An element is its type byte, its field name and its value. -/
theorem elementSize_of_valueSize {i x : ℕ} {s : ℤ} (h0 : b i ≠ 0) (hx : CString b (i + 1) x)
    (hxn : x < n) (hlen : x - i < 2 ^ 31)
    (hval : valueSize b n (BSONType.ofByte (b i)) ((x + 1 : ℕ) : ℤ) = some s) :
    elementSize b n i = some (s + x - i + 1) := by
  have hix := hx.1
  have hname : toInt32 (x - (i + 1)) = ((x - (i + 1) : ℕ) : ℤ) := toInt32_of_lt (by omega)
  have hpos : (i : ℤ) + 1 = ((i + 1 : ℕ) : ℤ) := by push_cast; rfl
  have hvalue : (i : ℤ) + (((x - (i + 1) : ℕ) : ℤ) + 1) + 1 = ((x + 1 : ℕ) : ℤ) := by omega
  simp only [elementSize, byteAt_of_lt (by omega : i < n), Option.bind_eq_bind, Option.bind_some,
    if_neg h0, hpos, strlen_of_cString hx hxn, hname, hvalue, hval, Option.pure_def,
    Option.some.injEq]
  omega

/-- **`size()` measures every element of the grammar exactly.** -/
theorem elementSize_of_derives {g i r : ℕ} (h : Derives maxDepth b .element g i r) (hr : r ≤ n)
    (hlen : r - i < 2 ^ 31) : elementSize b n i = some ((r : ℤ) - i) := by
  cases h with
  | @leaf _ _ x _ type hty hx hval =>
      have h0 := BSONType.ne_zero_of_ofByte hty (by rintro rfl; exact hval)
      have hxr := hval.le
      have hix := hx.1
      rw [elementSize_of_valueSize h0 hx (by omega) (by omega)
        (by rw [hty]; exact valueSize_of_leafValue hval hr (by omega))]
      congr 1
      omega
  | @embedded _ _ x _ type hty hnested hx hdoc =>
      have h0 := BSONType.ne_zero_of_ofByte hty (by rcases hnested with rfl | rfl <;> simp)
      have hix := hx.1
      obtain ⟨hpq, hsize⟩ : x + 1 + 5 ≤ r ∧ readInt32 b (x + 1) = ((r - (x + 1) : ℕ) : ℤ) := by
        cases hdoc with
        | document _ hpq hsize => exact ⟨hpq, hsize⟩
      have htype : type = .object ∨ type = .array ∨ type = .codeWScope := by
        rcases hnested with h | h <;> simp [h]
      rw [elementSize_of_valueSize h0 hx (by omega) (by omega)
        (by rw [hty]; exact valueSize_nested htype (by omega)), hsize]
      congr 1
      omega
  | @codeWScope _ _ x s _ hty hx hsize hs hdoc =>
      have h0 := BSONType.ne_zero_of_ofByte hty (by simp)
      have hix := hx.1
      have hxs := hs.lt
      have hsr := hdoc.le
      rw [elementSize_of_valueSize h0 hx (by omega) (by omega)
        (by rw [hty]; exact valueSize_nested (Or.inr (Or.inr rfl)) (by omega)), hsize]
      congr 1
      omega

/-! ## Iterating an object -/

/-- `elems` are the elements of the grammar from `p` to `e`, one after the other, as the positions
and sizes the iterator reports for them. -/
inductive ElementsOf (maxDepth : ℕ) (bytes : ℕ → UInt8) (g : ℕ) :
    ℕ → ℕ → List (ℤ × ℤ) → Prop
  | nil (p : ℕ) : ElementsOf maxDepth bytes g p p []
  | cons {i r e : ℕ} {elems : List (ℤ × ℤ)} : Derives maxDepth bytes .element g i r →
      ElementsOf maxDepth bytes g r e elems →
      ElementsOf maxDepth bytes g i e (((i : ℤ), (r : ℤ) - i) :: elems)

/-- The listed elements run forward. -/
theorem ElementsOf.le {g p e : ℕ} {elems : List (ℤ × ℤ)}
    (h : ElementsOf maxDepth b g p e elems) : p ≤ e := by
  induction h with
  | nil => exact le_refl _
  | cons hel _ ih => exact le_trans hel.le.1 ih

/-- The sizes of the listed elements add up to the range they tile. -/
theorem ElementsOf.sum_eq {g p e : ℕ} {elems : List (ℤ × ℤ)}
    (h : ElementsOf maxDepth b g p e elems) : (p : ℤ) + (elems.map Prod.snd).sum = e := by
  induction h with
  | nil => simp
  | cons _ _ ih =>
      rw [List.map_cons, List.sum_cons, ← ih]
      dsimp only
      omega

/-- Every listed element is an element of the grammar inside the range. -/
theorem ElementsOf.mem {g p e : ℕ} {elems : List (ℤ × ℤ)}
    (h : ElementsOf maxDepth b g p e elems) :
    ∀ x ∈ elems, ∃ i r : ℕ, x = ((i : ℤ), (r : ℤ) - i) ∧ p ≤ i ∧ r ≤ e ∧
      Derives maxDepth b .element g i r := by
  induction h with
  | nil => simp
  | @cons i r e elems hel hrest ih =>
      have hre := hrest.le
      intro x hx
      rcases List.mem_cons.mp hx with rfl | hx
      · exact ⟨i, r, rfl, le_refl _, hre, hel⟩
      · obtain ⟨i', r', rfl, hi', hr', hel'⟩ := ih x hx
        exact ⟨i', r', rfl, by have := hel.le; omega, hr', hel'⟩

/-- **The iterator visits the elements of the grammar** one by one, until it reaches the end of
the elements. -/
theorem visitElements_of_derives {g p e : ℕ} (h : Derives maxDepth b .elements g p e)
    (he : e < n) (hlen : e - p < 2 ^ 31) :
    ∀ fuel, e - p < fuel →
      ∃ elems, visitElements b n e fuel p = some elems ∧ ElementsOf maxDepth b g p e elems := by
  generalize hph : Phrase.elements = ph at h
  induction h with
  | nil =>
      rintro (_ | fuel) hfuel
      · omega
      · exact ⟨[], by simp [visitElements], .nil _⟩
  | @cons g p r e h₁ h₂ _ ih₂ =>
      rintro (_ | fuel) hfuel
      · omega
      have hpr := h₁.le.2.1 rfl
      have hre := h₂.le.1
      obtain ⟨elems, hvisit, helems⟩ := ih₂ he (by omega) hph fuel (by omega)
      refine ⟨_, ?_, .cons h₁ helems⟩
      have hnext : (p : ℤ) + ((r : ℤ) - p) = r := by omega
      simp only [visitElements, if_pos (by omega : (p : ℤ) < e),
        elementSize_of_derives (n := n) h₁ (by omega) (by omega), Option.bind_eq_bind,
        Option.bind_some, hnext, hvisit, Option.pure_def]
  | _ => cases hph

/-- **Iterating a document of the grammar** visits its elements, from offset `4` up to its `EOO`
byte, each with its exact size. -/
theorem iterateObject_of_derives {f p q : ℕ} (h : Derives maxDepth b .document f p q)
    (hq : q ≤ n) :
    ∀ fuel, q - p ≤ fuel → ∃ elems, iterateObject b n p fuel = some elems ∧
      ElementsOf maxDepth b (f + 1) (p + 4) (q - 1) elems := by
  cases h with
  | document _ hpq hsize _ hel =>
      intro fuel hfuel
      have hlt : readInt32 b p < 2 ^ 31 := toInt32_lt _
      obtain ⟨elems, hvisit, helems⟩ :=
        visitElements_of_derives (n := n) hel (by omega) (by omega) fuel (by omega)
      refine ⟨elems, ?_, helems⟩
      have hstart : (p : ℤ) + 4 = ((p + 4 : ℕ) : ℤ) := by push_cast; rfl
      have hend : (p : ℤ) + ((q - p : ℕ) : ℤ) - 1 = ((q - 1 : ℕ) : ℤ) := by omega
      simp only [iterateObject, iteratorOf, sizeField_eq (n := n) (v := p) (by omega), hsize,
        Option.bind_eq_bind, Option.bind_some, Option.pure_def,
        if_neg (by omega : ((q - p : ℕ) : ℤ) ≠ 0), hstart, hend, hvisit]

/-! ## Validated buffers -/

/-- **Validated buffers are safe to iterate.**  In a buffer shorter than `2^31` bytes that
`validateBSON` accepts, the top-level object is a document of the grammar; iterating it, or any
document inside the buffer (each object, array and `CodeWScope` scope nested in it is one), visits
elements that tile its body from offset `4` to its `EOO` byte, each measured by `size()` exactly
as the validator reads it. -/
theorem iterateObject_of_validateBSON (hn : n < 2 ^ 31)
    (h : validateBSON maxDepth b n = .ok ()) :
    ∃ q ≤ n, Derives maxDepth b .document 0 0 q ∧
      ∀ f p q₁, Derives maxDepth b .document f p q₁ → q₁ ≤ n → ∀ fuel, q₁ - p ≤ fuel →
        ∃ elems, iterateObject b n p fuel = some elems ∧
          ElementsOf maxDepth b (f + 1) (p + 4) (q₁ - 1) elems ∧
          ∀ x ∈ elems, ∃ i r : ℕ, x = ((i : ℤ), (r : ℤ) - i) ∧ r < n ∧
            Passes maxDepth b n .element (f + 1) i r := by
  obtain ⟨-, q, hq, hdoc⟩ := derives_of_validateBSON hn h
  refine ⟨q, hq, hdoc, fun f p q₁ hdoc₁ hq₁ fuel hfuel => ?_⟩
  obtain ⟨elems, hiter, helems⟩ := iterateObject_of_derives hdoc₁ hq₁ fuel hfuel
  refine ⟨elems, hiter, helems, fun x hx => ?_⟩
  obtain ⟨i, r, rfl, -, hr, hel⟩ := helems.mem x hx
  have hpq := hdoc₁.le.2.2 rfl
  exact ⟨i, r, rfl, by omega, passes_of_derives hn hel⟩

theorem iterateObject_of_validateBSON_emptyDocument :
    (5 : ℕ) < 2 ^ 31 ∧ validateBSON kDefaultMaxAllowableDepth emptyDocument 5 = .ok () ∧
      ∃ q ≤ 5, Derives kDefaultMaxAllowableDepth emptyDocument .document 0 0 q ∧
        ∀ f p q₁, Derives kDefaultMaxAllowableDepth emptyDocument .document f p q₁ → q₁ ≤ 5 →
          ∀ fuel, q₁ - p ≤ fuel →
            ∃ elems, iterateObject emptyDocument 5 p fuel = some elems ∧
              ElementsOf kDefaultMaxAllowableDepth emptyDocument (f + 1) (p + 4) (q₁ - 1) elems ∧
              ∀ x ∈ elems, ∃ i r : ℕ, x = ((i : ℤ), (r : ℤ) - i) ∧ r < 5 ∧
                Passes kDefaultMaxAllowableDepth emptyDocument 5 .element (f + 1) i r :=
  have h : validateBSON kDefaultMaxAllowableDepth emptyDocument 5 = .ok () := by decide
  ⟨by decide, h, iterateObject_of_validateBSON (by decide) h⟩

/-- **Past `2^32` bytes a validated object is not safe to iterate**: the wrapped document passes
validation, and the iterator measures its first element, a string of `2^31 - 1` bytes, far past
the object's `EOO` byte at offset `24`. -/
theorem iterateObject_wrappedDocument :
    validateBSON kDefaultMaxAllowableDepth wrappedDocument 4294967321 = .ok () ∧
      iterateObject wrappedDocument 4294967321 0 25 = some [(4, 2147483653)] ∧
      ¬ ∃ g, ElementsOf kDefaultMaxAllowableDepth wrappedDocument g 4 24 [(4, 2147483653)] := by
  refine ⟨validateBSON_wrappedDocument_ok, by decide, ?_⟩
  rintro ⟨g, h⟩
  have hsum := h.sum_eq
  simp at hsum

end Mongo
