import Mongo.Bson.Grammar

/-!
# What the validator's reads accept

One lemma per reading routine of `bson_validate.cpp`, each saying exactly which bytes it accepts
and where it leaves the position, in the terms of the grammar: `readCString` accepts a
`CString`, `readUTF8String` a `Utf8String`, `validateValue` a `LeafValue` (or hands an object,
array or `CodeWScope` to the state machine).  The machine-level proofs cite these and never
unfold a routine.

Every routine also fails only with a status (`ValidationError.IsStatus`) as long as the position
is inside the buffer: the one read that could leave it, `memchr` over `_maxLength - _position`,
stays inside because that difference does not wrap.
-/

namespace Mongo

/-- An error that is a status the validator returns, not a fault of the model. -/
def ValidationError.IsStatus : ValidationError → Prop
  | .invalid _ _ | .tooShort | .depthExceeded _ => True
  | .outOfBounds _ | .outOfFuel | .noFrame => False

variable {b : ℕ → UInt8} {p n : ℕ}

/-! ## Fixed-size reads -/

namespace Buffer

theorem readInt_of_le (h : p + 4 ≤ n) :
    (⟨b, p, n⟩ : Buffer).readInt = some (readInt32 b p, ⟨b, p + 4, n⟩) := by
  simp [readInt, readNumber, not_lt.mpr h]

theorem readInt_of_lt (h : n < p + 4) : (⟨b, p, n⟩ : Buffer).readInt = none := by
  simp [readInt, readNumber, h]

theorem readByte_of_lt (h : p < n) :
    (⟨b, p, n⟩ : Buffer).readByte = some (b p, ⟨b, p + 1, n⟩) := by
  simp [readByte, readNumber, not_lt.mpr (Nat.succ_le_of_lt h)]

theorem readByte_of_le (h : n ≤ p) : (⟨b, p, n⟩ : Buffer).readByte = none := by
  simp [readByte, readNumber]
  omega

theorem skip_of_lt {k : ℕ} (h : p + k < n) : (⟨b, p, n⟩ : Buffer).skip k = some ⟨b, p + k, n⟩ := by
  simp [skip, h]

theorem skip_of_le {k : ℕ} (h : n ≤ p + k) : (⟨b, p, n⟩ : Buffer).skip k = none := by
  simp [skip, not_lt.mpr h]

end Buffer

/-! ## C strings -/

/-- **`memchr` inside the buffer.**  Looking through bytes below `maxLength` never faults, and
finds the end of the C string from `start` when it lies among them. -/
theorem memchrZero_spec (start count : ℕ) (h : start + count ≤ n) :
    ∃ r, memchrZero b n start count = .ok r ∧
      (∀ x, r = some x → CString b start x ∧ x < start + count) ∧
      (r = none → ∀ i, start ≤ i → i < start + count → b i ≠ 0) := by
  induction count generalizing start with
  | zero => exact ⟨none, rfl, by simp, fun _ i h₁ h₂ => by omega⟩
  | succ count ih =>
      have hstart : start < n := by omega
      by_cases hzero : b start = 0
      · refine ⟨some start, by simp [memchrZero, hstart, hzero], ?_, by simp⟩
        rintro x ⟨⟩
        exact ⟨⟨le_refl _, hzero, fun i h₁ h₂ => by omega⟩, by omega⟩
      · obtain ⟨r, hr, hsome, hnone⟩ := ih (start + 1) (by omega)
        refine ⟨r, by simp [memchrZero, hstart, hzero, hr], fun x hx => ?_, fun hn i h₁ h₂ => ?_⟩
        · obtain ⟨⟨hle, hx0, hnz⟩, hlt⟩ := hsome x hx
          refine ⟨⟨by omega, hx0, fun i h₁ h₂ => ?_⟩, by omega⟩
          rcases Nat.eq_or_lt_of_le h₁ with rfl | h₁
          · exact hzero
          · exact hnz i h₁ h₂
        · rcases Nat.eq_or_lt_of_le h₁ with rfl | h₁
          · exact hzero
          · exact hnone hn i h₁ (by omega)

/-- The count `memchr` is given: the `uint64_t` difference does not wrap inside the buffer. -/
theorem memchrCount_eq (hp : p ≤ n) (hn : n < 2 ^ 64) : (n + 2 ^ 64 - p) % 2 ^ 64 = n - p := by
  have : n + 2 ^ 64 - p = (n - p) + 2 ^ 64 := by omega
  rw [this, Nat.add_mod_right, Nat.mod_eq_of_lt (by omega)]

namespace Buffer

/-- **`readCString` accepts exactly a C string ending inside the buffer**, and fails with a
status otherwise. -/
theorem readCString_spec (elemName : List UInt8) (hp : p ≤ n) (hn : n < 2 ^ 64) :
    (∀ x, CString b p x → x < n →
      ∃ name, (⟨b, p, n⟩ : Buffer).readCString elemName = .ok (name, ⟨b, x + 1, n⟩)) ∧
    (∀ name buf', (⟨b, p, n⟩ : Buffer).readCString elemName = .ok (name, buf') →
      ∃ x, CString b p x ∧ x < n ∧ buf' = ⟨b, x + 1, n⟩) ∧
    (∀ e, (⟨b, p, n⟩ : Buffer).readCString elemName = .error e → e.IsStatus) := by
  obtain ⟨r, hr, hsome, hnone⟩ := memchrZero_spec (b := b) (n := n) p (n - p) (by omega)
  have hcount := memchrCount_eq hp hn
  cases r with
  | none =>
      have hrun : (⟨b, p, n⟩ : Buffer).readCString elemName =
          .error (.invalid "no end of c-string" elemName) := by
        simp only [readCString, hcount, hr]
        rfl
      refine ⟨fun x hx hxn => absurd hx.2.1 (hnone rfl x hx.1 (by omega)),
        fun name buf' h => by simp [hrun] at h, fun e h => ?_⟩
      simp only [hrun, Except.error.injEq] at h
      rw [← h]
      trivial
  | some y =>
      obtain ⟨hy, hyn⟩ := hsome y rfl
      have hrun : (⟨b, p, n⟩ : Buffer).readCString elemName =
          .ok ((List.range (y - p)).map (fun i => b (p + i)), ⟨b, y + 1, n⟩) := by
        simp only [readCString, hcount, hr, Except.ok_bind, Nat.add_sub_cancel' hy.1]
        rfl
      refine ⟨fun x hx hxn => ?_, fun name buf' h => ?_, fun e h => by simp [hrun] at h⟩
      · obtain rfl := hy.unique hx
        exact ⟨_, hrun⟩
      · simp only [hrun, Except.ok.injEq, Prod.mk.injEq] at h
        exact ⟨y, hy, by omega, h.2.symm⟩

/-- **`readUTF8String` accepts exactly a string value ending inside the buffer.** -/
theorem readUTF8String_eq_ok (elemName : List UInt8) {buf' : Buffer} :
    (⟨b, p, n⟩ : Buffer).readUTF8String elemName = .ok buf' ↔
      ∃ r, Utf8String b p r ∧ r ≤ n ∧ buf' = ⟨b, r, n⟩ := by
  by_cases h4 : p + 4 ≤ n
  · simp only [readUTF8String, readInt_of_le h4]
    by_cases hsz : readInt32 b p ≤ 0
    · rw [if_pos hsz]
      constructor
      · intro h
        simp at h
      · rintro ⟨r, hr, -⟩
        have := hr.1
        omega
    · rw [if_neg hsz]
      have hlast : p + 4 + (readInt32 b p - 1).toNat + 1 = p + 4 + (readInt32 b p).toNat := by
        omega
      by_cases hin : p + 4 + (readInt32 b p - 1).toNat < n
      · simp only [skip_of_lt hin, readByte_of_lt hin]
        by_cases hc : b (p + 4 + (readInt32 b p - 1).toNat) = 0
        · rw [if_neg (not_not.mpr hc), Except.pure_eq_ok, Except.ok.injEq]
          constructor
          · rintro rfl
            refine ⟨_, ⟨by omega, rfl, ?_⟩, by omega, by rw [hlast]⟩
            rw [← hlast, Nat.add_sub_cancel]
            exact hc
          · rintro ⟨r, ⟨-, rfl, -⟩, -, rfl⟩
            rw [hlast]
        · rw [if_pos hc]
          constructor
          · intro h
            simp at h
          · rintro ⟨r, ⟨-, hr, hr0⟩, -⟩
            rw [hr, ← hlast, Nat.add_sub_cancel] at hr0
            exact absurd hr0 hc
      · simp only [skip_of_le (not_lt.mp hin)]
        constructor
        · intro h
          simp at h
        · rintro ⟨r, ⟨-, hr, -⟩, hrn, -⟩
          omega
  · simp only [readUTF8String, readInt_of_lt (not_le.mp h4)]
    constructor
    · intro h
      simp at h
    · rintro ⟨r, hr, hrn, -⟩
      have := hr.lt
      omega

/-- `readUTF8String` fails only with an `InvalidBSON` status naming the element. -/
theorem readUTF8String_error (elemName : List UInt8) (buf : Buffer) {e : ValidationError}
    (h : buf.readUTF8String elemName = .error e) : ∃ baseMsg, e = .invalid baseMsg elemName := by
  unfold readUTF8String at h
  repeat' split at h
  all_goals first
    | exact ⟨_, (Except.error.inj h).symm⟩
    | simp at h

end Buffer

/-! ## Values -/

open Buffer in
/-- **Every leaf value ending inside the buffer passes `validateValue`**, which moves past it. -/
theorem validateValue_of_leafValue (elemName : List UInt8) {type : BSONType} {v r : ℕ}
    (hv : LeafValue b type v r) (hr : r < n) (hn : n < 2 ^ 64) :
    validateValue (some type) elemName ⟨b, v, n⟩ = .ok (.withinObj, ⟨b, r, n⟩) := by
  cases type with
  | minKey | maxKey | jstNULL | undefined =>
      simp only [LeafValue] at hv
      subst hv
      rfl
  | jstOID | numberInt | numberDouble | numberLong | bsonTimestamp | date | numberDecimal =>
      simp only [LeafValue] at hv
      subst hv
      simp [validateValue, skip_of_lt hr]
  | bool =>
      obtain ⟨hval, rfl⟩ := hv
      have hin : v < n := by omega
      rcases hval with h0 | h1 <;> simp [validateValue, readByte_of_lt hin, *]
  | dbRef =>
      obtain ⟨s, hs, rfl⟩ := hv
      have hstr : (⟨b, v, n⟩ : Buffer).readUTF8String elemName = .ok ⟨b, s, n⟩ :=
        (readUTF8String_eq_ok elemName).mpr ⟨s, hs, by omega, rfl⟩
      simp [validateValue, hstr, skip_of_lt hr]
  | regEx =>
      obtain ⟨x, y, hx, hy, rfl⟩ := hv
      have hvx := hx.1
      have hxy := hy.1
      obtain ⟨name₁, h₁⟩ := (readCString_spec elemName (by omega) hn).1 x hx (by omega)
      obtain ⟨name₂, h₂⟩ := (readCString_spec elemName (by omega) hn).1 y hy (by omega)
      simp only [validateValue]
      rw [h₁, Except.ok_bind]
      dsimp only
      rw [h₂, Except.ok_bind]
      rfl
  | string | code | symbol =>
      have hstr : (⟨b, v, n⟩ : Buffer).readUTF8String elemName = .ok ⟨b, r, n⟩ :=
        (readUTF8String_eq_ok elemName).mpr ⟨r, hv, by omega, rfl⟩
      simp [validateValue, hstr]
  | binData =>
      obtain ⟨hnonneg, hmax, rfl⟩ := hv
      have hskip : v + 4 + (1 + readInt32 b v).toNat < n := by omega
      simp only [validateValue, readInt_of_le (by omega : v + 4 ≤ n)]
      rw [if_neg (by omega), skip_of_lt hskip]
      simp only [Except.pure_eq_ok, Except.ok.injEq, Prod.mk.injEq, true_and, Buffer.mk.injEq,
        and_true]
      omega
  | eoo | object | array | codeWScope => exact hv.elim

open Buffer in
/-- **What passes `validateValue`**: a leaf value ending inside the buffer, which it moves past,
or an object, array or `CodeWScope`, whose value the state machine reads next. -/
theorem validateValue_sound (elemName : List UInt8) {type : Option BSONType} {v : ℕ}
    {st : ValidationState} {buf' : Buffer} (hv : v ≤ n) (hn : n < 2 ^ 64)
    (h : validateValue type elemName ⟨b, v, n⟩ = .ok (st, buf')) :
    (st = .withinObj ∧ ∃ t r, type = some t ∧ LeafValue b t v r ∧ r ≤ n ∧ buf' = ⟨b, r, n⟩) ∨
      (st = .beginObj ∧ (type = some .object ∨ type = some .array) ∧ buf' = ⟨b, v, n⟩) ∨
      (st = .beginCodeWScope ∧ type = some .codeWScope ∧ buf' = ⟨b, v, n⟩) := by
  have hfixed : ∀ (t : BSONType) (k : ℕ), LeafValue b t v (v + k) →
      ∀ buf'', (⟨b, v, n⟩ : Buffer).skip k = some buf'' →
        (ValidationState.withinObj, buf'') = (st, buf') →
      st = .withinObj ∧ ∃ t' r, some t = some t' ∧ LeafValue b t' v r ∧ r ≤ n ∧
        buf' = ⟨b, r, n⟩ := by
    intro t k hleaf buf'' hskip hpair
    by_cases hk : v + k < n
    · rw [skip_of_lt hk, Option.some.injEq] at hskip
      subst hskip
      obtain ⟨rfl, rfl⟩ := Prod.mk.inj hpair
      exact ⟨rfl, t, v + k, rfl, hleaf, by omega, rfl⟩
    · rw [skip_of_le (not_lt.mp hk)] at hskip
      cases hskip
  cases type with
  | none => simp [validateValue] at h
  | some t =>
  cases t with
  | minKey | maxKey | jstNULL | undefined =>
      simp only [validateValue, Except.pure_eq_ok, Except.ok.injEq, Prod.mk.injEq] at h
      exact Or.inl ⟨h.1.symm, _, v, rfl, rfl, hv, h.2.symm⟩
  | jstOID | numberInt | numberDouble | numberLong | bsonTimestamp | date | numberDecimal =>
      simp only [validateValue] at h
      split at h
      next buf'' hskip => exact Or.inl (hfixed _ _ rfl buf'' hskip (Except.ok.inj h))
      next => simp at h
  | bool =>
      by_cases hin : v < n
      · simp only [validateValue, readByte_of_lt hin] at h
        split_ifs at h with hval
        simp only [Except.pure_eq_ok, Except.ok.injEq, Prod.mk.injEq] at h
        refine Or.inl ⟨h.1.symm, .bool, v + 1, rfl, ⟨?_, rfl⟩, by omega, h.2.symm⟩
        by_contra hne
        exact hval (not_or.mp hne)
      · simp [validateValue, readByte_of_le (not_lt.mp hin)] at h
  | dbRef =>
      simp only [validateValue] at h
      obtain ⟨buf₁, hstr, hrest⟩ := Except.bind_eq_ok.mp h
      obtain ⟨s, hs, hsn, rfl⟩ := (readUTF8String_eq_ok elemName).mp hstr
      by_cases hk : s + 12 < n
      · simp only [skip_of_lt hk, Except.pure_eq_ok, Except.ok.injEq, Prod.mk.injEq] at hrest
        exact Or.inl ⟨hrest.1.symm, .dbRef, s + 12, rfl, ⟨s, hs, rfl⟩, by omega, hrest.2.symm⟩
      · simp [skip_of_le (not_lt.mp hk)] at hrest
  | regEx =>
      simp only [validateValue] at h
      obtain ⟨⟨name₁, buf₁⟩, h₁, hrest⟩ := Except.bind_eq_ok.mp h
      obtain ⟨x, hx, hxn, rfl⟩ := (readCString_spec elemName hv hn).2.1 _ _ h₁
      obtain ⟨⟨name₂, buf₂⟩, h₂, hrest⟩ := Except.bind_eq_ok.mp hrest
      obtain ⟨y, hy, hyn, rfl⟩ := (readCString_spec elemName (by omega) hn).2.1 _ _ h₂
      simp only [Except.pure_eq_ok, Except.ok.injEq, Prod.mk.injEq] at hrest
      exact Or.inl ⟨hrest.1.symm, .regEx, y + 1, rfl, ⟨x, y, hx, hy, rfl⟩, by omega,
        hrest.2.symm⟩
  | string | code | symbol =>
      simp only [validateValue] at h
      obtain ⟨buf₁, hstr, hrest⟩ := Except.bind_eq_ok.mp h
      obtain ⟨r, hr, hrn, rfl⟩ := (readUTF8String_eq_ok elemName).mp hstr
      simp only [Except.pure_eq_ok, Except.ok.injEq, Prod.mk.injEq] at hrest
      exact Or.inl ⟨hrest.1.symm, _, r, rfl, hr, hrn, hrest.2.symm⟩
  | binData =>
      by_cases h4 : v + 4 ≤ n
      · simp only [validateValue, readInt_of_le h4] at h
        split_ifs at h with hsz
        have hlt : readInt32 b v < 2 ^ 31 := toInt32_lt _
        by_cases hk : v + 4 + (1 + readInt32 b v).toNat < n
        · simp only [skip_of_lt hk, Except.pure_eq_ok, Except.ok.injEq, Prod.mk.injEq] at h
          refine Or.inl ⟨h.1.symm, .binData, v + 5 + (readInt32 b v).toNat, rfl,
            ⟨by omega, by omega, rfl⟩, by omega, ?_⟩
          rw [← h.2]
          simp only [Buffer.mk.injEq, true_and, and_true]
          omega
        · simp [skip_of_le (not_lt.mp hk)] at h
      · simp [validateValue, readInt_of_lt (not_le.mp h4)] at h
  | object | array =>
      simp only [validateValue, Except.pure_eq_ok, Except.ok.injEq, Prod.mk.injEq] at h
      exact Or.inr (Or.inl ⟨h.1.symm, by simp, h.2.symm⟩)
  | codeWScope =>
      simp only [validateValue, Except.pure_eq_ok, Except.ok.injEq, Prod.mk.injEq] at h
      exact Or.inr (Or.inr ⟨h.1.symm, rfl, h.2.symm⟩)
  | eoo => simp [validateValue] at h

/-- `validateValue` fails only with a status while the position is inside the buffer. -/
theorem validateValue_error (elemName : List UInt8) (type : Option BSONType) {v : ℕ}
    {e : ValidationError} (hv : v ≤ n) (hn : n < 2 ^ 64)
    (h : validateValue type elemName ⟨b, v, n⟩ = .error e) : e.IsStatus := by
  cases type with
  | none =>
      cases h
      trivial
  | some t =>
  cases t with
  | regEx =>
      simp only [validateValue] at h
      rcases h₁ : (⟨b, v, n⟩ : Buffer).readCString elemName with e₁ | ⟨name₁, buf₁⟩
      · rw [h₁] at h
        cases h
        exact (Buffer.readCString_spec elemName hv hn).2.2 _ h₁
      · obtain ⟨x, -, hxn, rfl⟩ := (Buffer.readCString_spec elemName hv hn).2.1 _ _ h₁
        rw [h₁, Except.ok_bind] at h
        rcases h₂ : (⟨b, x + 1, n⟩ : Buffer).readCString elemName with e₂ | ⟨name₂, buf₂⟩
        · rw [h₂] at h
          cases h
          exact (Buffer.readCString_spec elemName (by omega) hn).2.2 _ h₂
        · rw [h₂] at h
          cases h
  | dbRef =>
      simp only [validateValue] at h
      rcases h₁ : (⟨b, v, n⟩ : Buffer).readUTF8String elemName with e₁ | buf₁
      · rw [h₁] at h
        cases h
        obtain ⟨_, rfl⟩ := Buffer.readUTF8String_error elemName _ h₁
        trivial
      · rw [h₁, Except.ok_bind] at h
        split at h <;> cases h
        trivial
  | string | code | symbol =>
      simp only [validateValue] at h
      rcases h₁ : (⟨b, v, n⟩ : Buffer).readUTF8String elemName with e₁ | buf₁
      · rw [h₁] at h
        cases h
        obtain ⟨_, rfl⟩ := Buffer.readUTF8String_error elemName _ h₁
        trivial
      · rw [h₁] at h
        cases h
  | _ =>
      simp only [validateValue] at h
      repeat' split at h
      all_goals first
        | (cases h; trivial)
        | simp at h

/-! ## Elements -/

/-- The type byte `EOO` ends the object. -/
theorem validateElementInfo_of_eoo (hp : p < n) (h0 : b p = 0) :
    validateElementInfo ⟨b, p, n⟩ = .ok (.endObj, [], ⟨b, p + 1, n⟩) := by
  simp [validateElementInfo, Buffer.readByte_of_lt hp, h0]

/-- Any other type byte, a field name ending inside the buffer and a value that `validateValue`
accepts make an element. -/
theorem validateElementInfo_of_value {x : ℕ} {st : ValidationState} {buf' : Buffer}
    (h0 : b p ≠ 0) (hx : CString b (p + 1) x) (hxn : x < n) (hn : n < 2 ^ 64)
    (hval : ∀ elemName, validateValue (BSONType.ofByte (b p)) elemName ⟨b, x + 1, n⟩ =
      .ok (st, buf')) :
    ∃ elemName, validateElementInfo ⟨b, p, n⟩ = .ok (st, elemName, buf') := by
  obtain ⟨elemName, hname⟩ :=
    (Buffer.readCString_spec [] (by have := hx.1; omega) hn).1 x hx hxn
  refine ⟨elemName, ?_⟩
  simp only [validateElementInfo, Buffer.readByte_of_lt (by have := hx.1; omega : p < n),
    if_neg h0]
  rw [hname, Except.ok_bind]
  simp only [hval, Except.ok_bind]
  rfl

/-- A type byte that names a type other than `EOO` is not zero. -/
theorem BSONType.ne_zero_of_ofByte {t : UInt8} {type : BSONType}
    (h : BSONType.ofByte t = some type) (hne : type ≠ .eoo) : t ≠ 0 := by
  rintro rfl
  cases h
  exact hne rfl

/-- An object or array value is left to the state machine, at the same position. -/
theorem validateValue_nested (elemName : List UInt8) (buf : Buffer) {type : BSONType}
    (h : type = .object ∨ type = .array) :
    validateValue (some type) elemName buf = .ok (.beginObj, buf) := by
  rcases h with rfl | rfl <;> rfl

/-- **What passes `validateElementInfo`**: the end of the object, or a defined type byte, a
field name ending inside the buffer, and a value that passes `validateValue`. -/
theorem validateElementInfo_sound {st : ValidationState} {elemName : List UInt8} {buf' : Buffer}
    (hn : n < 2 ^ 64)
    (h : validateElementInfo ⟨b, p, n⟩ = .ok (st, elemName, buf')) :
    (b p = 0 ∧ p < n ∧ st = .endObj ∧ buf' = ⟨b, p + 1, n⟩) ∨
      (b p ≠ 0 ∧ ∃ x, CString b (p + 1) x ∧ x < n ∧
        validateValue (BSONType.ofByte (b p)) elemName ⟨b, x + 1, n⟩ = .ok (st, buf')) := by
  by_cases hpn : p < n
  · by_cases h0 : b p = 0
    · rw [validateElementInfo_of_eoo hpn h0, Except.ok.injEq] at h
      simp only [Prod.mk.injEq] at h
      exact Or.inl ⟨h0, hpn, h.1.symm, h.2.2.symm⟩
    · simp only [validateElementInfo, Buffer.readByte_of_lt hpn, if_neg h0] at h
      obtain ⟨⟨name, buf₁⟩, h₁, hrest⟩ := Except.bind_eq_ok.mp h
      obtain ⟨x, hx, hxn, rfl⟩ := (Buffer.readCString_spec [] (by omega) hn).2.1 _ _ h₁
      obtain ⟨⟨st', buf₂⟩, h₂, hrest⟩ := Except.bind_eq_ok.mp hrest
      simp only [Except.pure_eq_ok, Except.ok.injEq, Prod.mk.injEq] at hrest
      obtain ⟨rfl, rfl, rfl⟩ := hrest
      exact Or.inr ⟨h0, x, hx, hxn, h₂⟩
  · simp [validateElementInfo, Buffer.readByte_of_le (not_lt.mp hpn)] at h

/-- `validateElementInfo` fails only with a status. -/
theorem validateElementInfo_error {e : ValidationError} (hn : n < 2 ^ 64)
    (h : validateElementInfo ⟨b, p, n⟩ = .error e) : e.IsStatus := by
  by_cases hpn : p < n
  · by_cases h0 : b p = 0
    · simp [validateElementInfo_of_eoo hpn h0] at h
    · simp only [validateElementInfo, Buffer.readByte_of_lt hpn, if_neg h0] at h
      rcases h₁ : (⟨b, p + 1, n⟩ : Buffer).readCString [] with e₁ | ⟨name, buf₁⟩
      · rw [h₁] at h
        cases h
        exact (Buffer.readCString_spec [] (by omega) hn).2.2 _ h₁
      · obtain ⟨x, -, hxn, rfl⟩ := (Buffer.readCString_spec [] (by omega) hn).2.1 _ _ h₁
        rw [h₁, Except.ok_bind] at h
        rcases h₂ : validateValue (BSONType.ofByte (b p)) name ⟨b, x + 1, n⟩ with e₂ | r
        · rw [h₂] at h
          cases h
          exact validateValue_error name _ (by omega) hn h₂
        · rw [h₂] at h
          cases h
  · simp only [validateElementInfo, Buffer.readByte_of_le (not_lt.mp hpn)] at h
    cases h
    trivial

end Mongo
