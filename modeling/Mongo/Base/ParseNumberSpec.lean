import Mathlib
import Mongo.Base.ParseNumber
import Mongo.Lib.Except

/-!
# What `parseNumberFromStringWithBase` accepts

`parseNumberFromStringWithBase_spec` describes the parser for every integral type, every base
and every string.  A parse succeeds with `v` exactly when the string `Spells` `v`: an optional
sign, the prefix strtol reads for the base, and a non-empty run of digits below the base that
prefix selects, whose value with the sign lies in the type's range.  In particular every value
of the type, `min()` included, is read back from its canonical rendering in every base from 2
to 36.

The proof follows the stages of the parser.

* The sign and the prefix come off as strtol says (`extractSign_spec`, `extractBase_spec`), and
  a spelling is taken apart the same way (`extractSign_append`, `extractBase_of_basePrefix`).
* The loop over the digits keeps its accumulator exact while it stays below `2^64`.  An overflow
  of the accumulator is an overflow of the whole value, since a further digit only makes it
  larger (`foldlM_parseMagnitudeStep_eq_ok_iff`).
* The check against `max() + 1` for a negative number is the range check on the signed value
  (`le_maxMagnitude_iff`).  Negating in 64 bits and keeping the low bits gives that value
  (`ofUInt64_signedValue`).
-/

namespace Mongo

namespace ParseNumber

/-- `limits::min()`. -/
def NumberType.min (t : NumberType) : ℤ :=
  if t.isSigned then -2 ^ (t.bits - 1) else 0

/-- The value of the digits `ds` in base `b`, the most significant first. -/
def valueOf (b : ℕ) (ds : List Char) : ℕ :=
  Nat.ofDigits b (ds.map digitValue).reverse

/-- The value a magnitude stands for under a sign. -/
def signedValue (isNegative : Bool) (m : ℕ) : ℤ :=
  if isNegative then -(m : ℤ) else m

/-- The sign strtol reads: none, `+` or `-`. -/
def SignOf (sign : List Char) (isNegative : Bool) : Prop :=
  sign = [] ∧ isNegative = false ∨ sign = ['+'] ∧ isNegative = false ∨
    sign = ['-'] ∧ isNegative = true

/-- `BasePrefix base pre ds b`: after the sign, the prefix `pre` before the digits `ds` selects
the base `b` for the argument `base`, by the strtol rules. -/
inductive BasePrefix : ℤ → List Char → List Char → ℕ → Prop
  /-- Base 0: `0x` or `0X` before at least one more character selects 16. -/
  | hex {x : Char} {ds : List Char} : (x = 'x' ∨ x = 'X') → ds ≠ [] → BasePrefix 0 ['0', x] ds 16
  /-- Base 0: otherwise a leading `0` before at least one more character selects 8. -/
  | octal {c : Char} {ds : List Char} :
      ¬ ((c = 'x' ∨ c = 'X') ∧ ds ≠ []) → BasePrefix 0 [] ('0' :: c :: ds) 8
  /-- Base 0: anything else is read in base 10. -/
  | decimal {ds : List Char} : (∀ c rest, ds ≠ '0' :: c :: rest) → BasePrefix 0 [] ds 10
  /-- Base 16 may carry a `0x` or `0X` prefix. -/
  | hexPrefix {x : Char} {ds : List Char} : (x = 'x' ∨ x = 'X') → BasePrefix 16 ['0', x] ds 16
  /-- A base from 2 to 36 reads the digits as they are. -/
  | plain {b : ℕ} {ds : List Char} : 2 ≤ b → b ≤ 36 → BasePrefix b [] ds b

/-- `s` spells `v` for `t` in base `base`: a sign, the prefix for the base and a non-empty run of
digits below the base it selects, whose value with the sign lies in `t`'s range.  A `-` is
allowed only for a signed type. -/
def Spells (t : NumberType) (base : ℤ) (s : List Char) (v : ℤ) : Prop :=
  ∃ (sign pre ds : List Char) (isNegative : Bool) (b : ℕ),
    s = sign ++ pre ++ ds ∧ SignOf sign isNegative ∧ (isNegative = true → t.isSigned = true) ∧
      BasePrefix base pre ds b ∧ ds ≠ [] ∧ (∀ c ∈ ds, digitValue c < b) ∧
      v = signedValue isNegative (valueOf b ds) ∧ t.min ≤ v ∧ v ≤ t.max

/-- The digit for a value below 36: `0`–`9`, then `a`–`z`. -/
def digitChar (d : ℕ) : Char :=
  if d < 10 then Char.ofNat (48 + d) else Char.ofNat (87 + d)

/-- The digits of `n` in base `b`, the most significant first; zero is `0`. -/
def renderMagnitude (b n : ℕ) : List Char :=
  if n = 0 then ['0'] else ((Nat.digits b n).map digitChar).reverse

/-- The canonical rendering of `v` in base `b`: a `-` for a negative number, then the digits of
its magnitude. -/
def render (b : ℕ) (v : ℤ) : List Char :=
  (if v < 0 then ['-'] else []) ++ renderMagnitude b v.natAbs

/-! ## Digits -/

theorem digitValue_le (c : Char) : digitValue c ≤ 36 := by
  have h0 : ('0' : Char).toNat = 48 := rfl
  have h9 : ('9' : Char).toNat = 57 := rfl
  have ha : ('a' : Char).toNat = 97 := rfl
  have hz : ('z' : Char).toNat = 122 := rfl
  have hA : ('A' : Char).toNat = 65 := rfl
  have hZ : ('Z' : Char).toNat = 90 := rfl
  unfold digitValue
  simp only [Char.le_def, UInt32.le_iff_toNat_le, Char.toNat_val]
  split_ifs <;> omega

theorem digitValue_digitChar {d : ℕ} (h : d < 36) : digitValue (digitChar d) = d := by
  have hall : ∀ e ∈ List.range 36, digitValue (digitChar e) = e := by decide
  exact hall d (List.mem_range.mpr h)

/-- A sign is a digit of no base. -/
theorem ne_sign_of_digitValue_lt {c : Char} (h : digitValue c < 36) : c ≠ '-' ∧ c ≠ '+' := by
  refine ⟨?_, ?_⟩ <;> rintro rfl <;> exact absurd h (by decide)

/-- The `x` of a hexadecimal prefix is a digit of no base up to 33. -/
theorem ne_hexMark_of_digitValue_lt {c : Char} (h : digitValue c < 33) : ¬ (c = 'x' ∨ c = 'X') := by
  rintro (rfl | rfl) <;> exact absurd h (by decide)

@[simp] theorem valueOf_nil (b : ℕ) : valueOf b [] = 0 := rfl

theorem valueOf_cons (b : ℕ) (c : Char) (cs : List Char) :
    valueOf b (c :: cs) = valueOf b cs + b ^ cs.length * digitValue c := by
  simp only [valueOf, List.map_cons, List.reverse_cons, Nat.ofDigits_append, List.length_reverse,
    List.length_map, Nat.ofDigits_singleton]

/-! ## The loop over the digits -/

section Magnitude

variable {b : ℕ} (wholeString : List Char)

theorem toNat_toUInt64_of_lt {n : ℕ} (h : n < 2 ^ 64) : n.toUInt64.toNat = n := by
  rw [Nat.toUInt64_eq, UInt64.toNat_ofNat', Nat.mod_eq_of_lt h]

/-- One digit: the step succeeds exactly when the digit is below the base and
`n * base + digit` fits in 64 bits, and it then gives that number. -/
theorem parseMagnitudeStep_eq_ok_iff (hb : b < 2 ^ 64) (n : UInt64) (c : Char) (n' : UInt64) :
    parseMagnitudeStep b.toUInt64 wholeString n c = .ok n' ↔
      digitValue c < b ∧ n.toNat * b + digitValue c < 2 ^ 64 ∧
        n'.toNat = n.toNat * b + digitValue c := by
  have hd : (digitValue c).toUInt64.toNat = digitValue c :=
    toNat_toUInt64_of_lt (by have := digitValue_le c; omega)
  have hbase : b.toUInt64.toNat = b := toNat_toUInt64_of_lt hb
  unfold parseMagnitudeStep unsignedMultiplyOverflow64 unsignedAddOverflow64
  simp only [ge_iff_le, UInt64.le_iff_toNat_le, hd, hbase, decide_eq_true_eq, UInt64.toNat_mul]
  split_ifs with hdigit hmul hadd
  · simp only [false_iff]
    omega
  · simp only [false_iff]
    omega
  · simp only [false_iff]
    omega
  · rw [Except.ok.injEq, ← UInt64.toNat_inj, UInt64.toNat_add, UInt64.toNat_mul, hbase, hd]
    omega

/-- **The loop keeps the accumulator exact.**  From an accumulator `acc`, the loop over `cs`
succeeds exactly when every digit is below the base and the value of `acc` followed by the
digits fits in 64 bits, and it then returns that value.  An overflow at some step is an overflow
of the whole value, which only grows with each further digit. -/
theorem foldlM_parseMagnitudeStep_eq_ok_iff (hb : 1 ≤ b) (hb64 : b < 2 ^ 64) :
    ∀ (cs : List Char) (acc n : UInt64),
      cs.foldlM (parseMagnitudeStep b.toUInt64 wholeString) acc = .ok n ↔
        (∀ c ∈ cs, digitValue c < b) ∧ acc.toNat * b ^ cs.length + valueOf b cs < 2 ^ 64 ∧
          n.toNat = acc.toNat * b ^ cs.length + valueOf b cs
  | [], acc, n => by
      rw [List.foldlM_nil, Except.pure_eq_ok, Except.ok.injEq, ← UInt64.toNat_inj]
      simp only [List.not_mem_nil, IsEmpty.forall_iff, implies_true, List.length_nil, pow_zero,
        mul_one, valueOf_nil, add_zero, true_and]
      have := acc.toNat_lt
      omega
  | c :: cs, acc, n => by
      rw [List.foldlM_cons, Except.bind_eq_ok]
      simp only [parseMagnitudeStep_eq_ok_iff wholeString hb64,
        foldlM_parseMagnitudeStep_eq_ok_iff hb hb64 cs, List.forall_mem_cons, valueOf_cons,
        List.length_cons]
      have hexp : acc.toNat * b ^ (cs.length + 1) + (valueOf b cs + b ^ cs.length * digitValue c) =
          (acc.toNat * b + digitValue c) * b ^ cs.length + valueOf b cs := by
        ring
      have hle : acc.toNat * b + digitValue c ≤ (acc.toNat * b + digitValue c) * b ^ cs.length :=
        Nat.le_mul_of_pos_right _ (Nat.one_le_pow _ _ hb)
      rw [hexp]
      constructor
      · rintro ⟨m, ⟨hd, -, hm⟩, hall, hlt, hn⟩
        rw [hm] at hlt hn
        exact ⟨⟨hd, hall⟩, hlt, hn⟩
      · rintro ⟨⟨hd, hall⟩, hlt, hn⟩
        have hfit : acc.toNat * b + digitValue c < 2 ^ 64 := by omega
        refine ⟨(acc.toNat * b + digitValue c).toUInt64,
          ⟨hd, hfit, toNat_toUInt64_of_lt hfit⟩, hall, ?_, ?_⟩
        · rw [toNat_toUInt64_of_lt hfit]
          exact hlt
        · rw [toNat_toUInt64_of_lt hfit]
          exact hn

/-- `parseMagnitudeFromStringWithBase` succeeds exactly when every digit is below the base and
their value fits in 64 bits, and it returns that value. -/
theorem parseMagnitudeFromStringWithBase_eq_ok_iff (hb : 1 ≤ b) (hb64 : b < 2 ^ 64)
    (magnitudeStr : List Char) (n : UInt64) :
    parseMagnitudeFromStringWithBase b.toUInt64 wholeString magnitudeStr = .ok n ↔
      (∀ c ∈ magnitudeStr, digitValue c < b) ∧ valueOf b magnitudeStr < 2 ^ 64 ∧
        n.toNat = valueOf b magnitudeStr := by
  rw [parseMagnitudeFromStringWithBase, foldlM_parseMagnitudeStep_eq_ok_iff wholeString hb hb64]
  simp only [UInt64.toNat_zero, zero_mul, zero_add]

end Magnitude

/-! ## The range check and the cast -/

namespace NumberType

variable (t : NumberType)

theorem max_add_one_of_isSigned (h : t.isSigned = true) : t.max + 1 = 2 ^ (t.bits - 1) := by
  have := Nat.one_le_two_pow (n := t.bits - 1)
  rw [NumberType.max, if_pos h]
  omega

theorem max_add_one_of_not_isSigned (h : t.isSigned = false) : t.max + 1 = 2 ^ t.bits := by
  have := Nat.one_le_two_pow (n := t.bits)
  rw [NumberType.max, if_neg (by simp [h])]
  omega

/-- A signed type's range is split at `2^(bits - 1)`: `2^bits` is twice that, and `2^64` is a
multiple of `2^bits`. -/
theorem two_pow_bits_eq : 2 ^ t.bits = 2 * 2 ^ (t.bits - 1) ∧
    2 ^ 64 = 2 ^ (64 - t.bits) * 2 ^ t.bits := by
  have h1 := t.bits_pos
  have h2 := t.bits_le
  constructor
  · rw [← pow_succ', Nat.sub_add_cancel h1]
  · rw [← pow_add, Nat.sub_add_cancel h2]

theorem two_pow_bits_sub_one_le : 2 ^ (t.bits - 1) ≤ 2 ^ 63 :=
  Nat.pow_le_pow_right (by decide) (by have := t.bits_le; omega)

theorem two_pow_bits_le : 2 ^ t.bits ≤ 2 ^ 64 :=
  Nat.pow_le_pow_right (by decide) t.bits_le

end NumberType

/-- The largest magnitude for a sign, `max() + 1` for a negative number, fits in 64 bits. -/
theorem maxMagnitude_lt (t : NumberType) {isNegative : Bool}
    (hneg : isNegative = true → t.isSigned = true) :
    t.max + (if isNegative then 1 else 0) < 2 ^ 64 := by
  cases isNegative with
  | false =>
      cases hs : t.isSigned
      · have := t.max_add_one_of_not_isSigned hs
        have := t.two_pow_bits_le
        simp only [Bool.false_eq_true, if_false]
        omega
      · have := t.max_add_one_of_isSigned hs
        have := t.two_pow_bits_sub_one_le
        simp only [Bool.false_eq_true, if_false]
        omega
  | true =>
      have := t.max_add_one_of_isSigned (hneg rfl)
      have := t.two_pow_bits_sub_one_le
      simp only [if_true]
      omega

/-- **The check against `maxMagnitude` is the range check.**  A magnitude passes
`magnitude > maxMagnitude` unharmed exactly when its value under the sign lies in the type's
range. -/
theorem le_maxMagnitude_iff (t : NumberType) {isNegative : Bool}
    (hneg : isNegative = true → t.isSigned = true) (m : ℕ) :
    m ≤ t.max + (if isNegative then 1 else 0) ↔
      t.min ≤ signedValue isNegative m ∧ signedValue isNegative m ≤ t.max := by
  cases isNegative with
  | false =>
      -- a magnitude read without a sign is at least `min() ≤ 0`
      have hmin : t.min ≤ 0 := by
        unfold NumberType.min
        split_ifs <;> simp
      simp only [signedValue, Bool.false_eq_true, if_false, add_zero]
      omega
  | true =>
      have hmax := t.max_add_one_of_isSigned (hneg rfl)
      simp only [signedValue, if_true, NumberType.min, hneg rfl]
      have : ((2 ^ (t.bits - 1) : ℕ) : ℤ) = 2 ^ (t.bits - 1) := by push_cast; rfl
      omega

/-- **The cast gives the signed value.**  A magnitude within `maxMagnitude`, negated in 64 bits
for a negative number and cast to the type, is the magnitude under its sign. -/
theorem ofUInt64_signedValue (t : NumberType) {isNegative : Bool}
    (hneg : isNegative = true → t.isSigned = true) (m : UInt64)
    (hm : m.toNat ≤ t.max + (if isNegative then 1 else 0)) :
    t.ofUInt64 (if isNegative then -m else m) = signedValue isNegative m.toNat := by
  obtain ⟨hhalf, h64⟩ := t.two_pow_bits_eq
  unfold NumberType.ofUInt64 signedValue
  cases isNegative with
  | false =>
      simp only [Bool.false_eq_true, if_false, add_zero] at hm ⊢
      cases hs : t.isSigned
      · have := t.max_add_one_of_not_isSigned hs
        simp only [Bool.false_eq_true, if_false]
        rw [Nat.mod_eq_of_lt (by omega)]
      · have := t.max_add_one_of_isSigned hs
        simp only [if_true]
        apply Int.bmod_eq_of_le <;> omega
  | true =>
      have hs := hneg rfl
      have := t.max_add_one_of_isSigned hs
      simp only [if_true, hs] at hm ⊢
      have hsize : UInt64.size = 2 ^ (64 - t.bits) * 2 ^ t.bits := by rw [← h64]; rfl
      rw [UInt64.toNat_neg, hsize]
      by_cases h0 : m.toNat = 0
      · simp [h0]
      · have hlt : m.toNat < 2 ^ (64 - t.bits) * 2 ^ t.bits := by
          rw [← h64]
          exact m.toNat_lt
        have hx : (((2 ^ (64 - t.bits) * 2 ^ t.bits - m.toNat) % (2 ^ (64 - t.bits) * 2 ^ t.bits) :
            ℕ) : ℤ) = -(m.toNat : ℤ) + ((2 ^ (64 - t.bits) : ℕ) : ℤ) * ((2 ^ t.bits : ℕ) : ℤ) := by
          rw [Nat.mod_eq_of_lt (by omega), Nat.cast_sub hlt.le, Nat.cast_mul]
          ring
        rw [hx, Int.add_mul_bmod_self_right]
        apply Int.bmod_eq_of_le <;> omega

/-! ## The sign and the base prefix -/

/-- `_extractSign` takes off the sign strtol reads. -/
theorem extractSign_spec (s : List Char) :
    ∃ sign, s = sign ++ (extractSign s).1 ∧ SignOf sign (extractSign s).2 := by
  cases s with
  | nil => exact ⟨[], rfl, Or.inl ⟨rfl, rfl⟩⟩
  | cons c rest =>
      simp only [extractSign]
      split_ifs with hminus hplus
      · exact ⟨['-'], by rw [hminus]; rfl, Or.inr (Or.inr ⟨rfl, rfl⟩)⟩
      · exact ⟨['+'], by rw [hplus]; rfl, Or.inr (Or.inl ⟨rfl, rfl⟩)⟩
      · exact ⟨[], rfl, Or.inl ⟨rfl, rfl⟩⟩

/-- A sign before a string that does not start with another sign is what `_extractSign`
takes off. -/
theorem extractSign_append {sign rest : List Char} {isNegative : Bool}
    (h : SignOf sign isNegative) (hrest : ∀ c r, rest = c :: r → c ≠ '-' ∧ c ≠ '+') :
    extractSign (sign ++ rest) = (rest, isNegative) := by
  rcases h with ⟨rfl, rfl⟩ | ⟨rfl, rfl⟩ | ⟨rfl, rfl⟩
  · cases rest with
    | nil => rfl
    | cons c r =>
        obtain ⟨hminus, hplus⟩ := hrest c r rfl
        simp [extractSign, hminus, hplus]
  · simp [extractSign]
  · simp [extractSign]

theorem startsWith_pair {s : List Char} {a b : Char} :
    startsWith s [a, b] = true ↔ ∃ rest, s = a :: b :: rest := by
  rcases s with _ | ⟨x, _ | ⟨y, rest⟩⟩ <;> simp [startsWith]

theorem eq_cons_cons_of_head? {s : List Char} {a : Char} (hlen : s.length > 1)
    (hhead : s.head? = some a) : ∃ c rest, s = a :: c :: rest := by
  rcases s with _ | ⟨x, _ | ⟨c, rest⟩⟩
  · simp at hlen
  · simp at hlen
  · simp only [List.head?_cons, Option.some.injEq] at hhead
    exact ⟨c, rest, by rw [hhead]⟩

/-- The base `_extractBase` selects and the prefix it takes off follow the strtol rules. -/
theorem extractBase_spec {base : ℤ} (hbase : base = 0 ∨ 2 ≤ base ∧ base ≤ 36) (r : List Char) :
    ∃ pre, r = pre ++ (extractBase r base).1 ∧
      BasePrefix base pre (extractBase r base).1 (extractBase r base).2.toNat := by
  unfold extractBase
  split_ifs with h0 hhex hoct hhex16
  · subst h0
    simp only [startsWith_pair] at hhex
    obtain ⟨hlen, ⟨rest, rfl⟩ | ⟨rest, rfl⟩⟩ := hhex
    · exact ⟨['0', 'x'], rfl, .hex (Or.inl rfl) (List.ne_nil_of_length_pos (by simpa using hlen))⟩
    · exact ⟨['0', 'X'], rfl, .hex (Or.inr rfl) (List.ne_nil_of_length_pos (by simpa using hlen))⟩
  · subst h0
    obtain ⟨hlen, hhead⟩ := hoct
    obtain ⟨c, ds, rfl⟩ := eq_cons_cons_of_head? hlen hhead
    refine ⟨[], rfl, .octal ?_⟩
    rintro ⟨hc, hds⟩
    apply hhex
    refine ⟨by simpa using List.length_pos_of_ne_nil hds, ?_⟩
    rcases hc with rfl | rfl
    · exact Or.inl (startsWith_pair.mpr ⟨ds, rfl⟩)
    · exact Or.inr (startsWith_pair.mpr ⟨ds, rfl⟩)
  · subst h0
    refine ⟨[], rfl, .decimal ?_⟩
    rintro c rest rfl
    exact hoct ⟨by simp, rfl⟩
  · obtain ⟨rfl, hpre⟩ := hhex16
    simp only [startsWith_pair] at hpre
    rcases hpre with ⟨rest, rfl⟩ | ⟨rest, rfl⟩
    · exact ⟨['0', 'x'], rfl, .hexPrefix (Or.inl rfl)⟩
    · exact ⟨['0', 'X'], rfl, .hexPrefix (Or.inr rfl)⟩
  · obtain ⟨n, rfl⟩ : ∃ n : ℕ, base = n := ⟨base.toNat, (Int.toNat_of_nonneg (by omega)).symm⟩
    rw [Int.toNat_natCast]
    exact ⟨[], rfl, .plain (by omega) (by omega)⟩

namespace BasePrefix

variable {base : ℤ} {pre ds : List Char} {b : ℕ}

/-- A prefix selects a base from 2 to 36. -/
theorem base_bounds (h : BasePrefix base pre ds b) : 2 ≤ b ∧ b ≤ 36 := by
  cases h with
  | plain h2 h36 => exact ⟨h2, h36⟩
  | _ => decide

/-- A prefix is read only under a valid base argument. -/
theorem arg_valid (h : BasePrefix base pre ds b) : base = 0 ∨ 2 ≤ base ∧ base ≤ 36 := by
  cases h with
  | plain h2 h36 => omega
  | _ => decide

/-- Neither a prefix nor digits start with a sign. -/
theorem ne_sign (h : BasePrefix base pre ds b) (hvalid : ∀ c ∈ ds, digitValue c < b) :
    ∀ c r, pre ++ ds = c :: r → c ≠ '-' ∧ c ≠ '+' := by
  intro c r hcr
  have hb := h.base_bounds
  have hmem : c ∈ pre ++ ds := by
    rw [hcr]
    exact List.mem_cons_self
  cases h with
  | hex | hexPrefix =>
      simp only [List.cons_append, List.cons.injEq] at hcr
      rw [← hcr.1]
      decide
  | octal | decimal | plain =>
      rw [List.nil_append] at hmem
      exact ne_sign_of_digitValue_lt (by have := hvalid c hmem; omega)

end BasePrefix

/-- **A spelled prefix is what `_extractBase` takes off.**  Before digits that are all below the
base a prefix selects, `_extractBase` takes off that prefix and selects that base. -/
theorem extractBase_of_basePrefix {base : ℤ} {pre ds : List Char} {b : ℕ}
    (h : BasePrefix base pre ds b) (hds : ds ≠ []) (hvalid : ∀ c ∈ ds, digitValue c < b) :
    extractBase (pre ++ ds) base = (ds, (b : ℤ)) := by
  cases h with
  | hex hx =>
      obtain ⟨c, rest, rfl⟩ := List.exists_cons_of_ne_nil hds
      rcases hx with rfl | rfl <;> simp [extractBase, startsWith]
  | @octal c ds' _ =>
      have hc : ¬ (c = 'x' ∨ c = 'X') :=
        ne_hexMark_of_digitValue_lt (by have := hvalid c (by simp); omega)
      simp [extractBase, startsWith, (not_or.mp hc).1, (not_or.mp hc).2]
  | decimal hd =>
      have hoct : ¬ (ds.length > 1 ∧ ds.head? = some '0') := by
        rintro ⟨hlen, hhead⟩
        obtain ⟨c, rest, hds⟩ := eq_cons_cons_of_head? hlen hhead
        exact hd c rest hds
      have hhex : ¬ (ds.length > 2 ∧
          (startsWith ds ['0', 'x'] = true ∨ startsWith ds ['0', 'X'] = true)) := by
        rintro ⟨-, hpre | hpre⟩ <;> obtain ⟨rest, hds⟩ := startsWith_pair.mp hpre
        · exact hd 'x' rest hds
        · exact hd 'X' rest hds
      unfold extractBase
      rw [List.nil_append, if_pos rfl, if_neg hhex, if_neg hoct]
      rfl
  | hexPrefix hx =>
      rcases hx with rfl | rfl <;> simp [extractBase, startsWith]
  | plain h2 h36 =>
      have hhex : ¬ ((b : ℤ) = 16 ∧
          (startsWith ds ['0', 'x'] = true ∨ startsWith ds ['0', 'X'] = true)) := by
        rintro ⟨h16, hpre | hpre⟩ <;> obtain ⟨rest, hds⟩ := startsWith_pair.mp hpre
        · have := hvalid 'x' (by simp [hds])
          exact absurd this (by rw [show b = 16 by omega]; decide)
        · have := hvalid 'X' (by simp [hds])
          exact absurd this (by rw [show b = 16 by omega]; decide)
      unfold extractBase
      rw [List.nil_append, if_neg (by omega), if_neg hhex]

/-- The check `magnitude > maxMagnitude`, read on the numbers. -/
theorem gt_maxMagnitude_iff (t : NumberType) {isNegative : Bool}
    (hneg : isNegative = true → t.isSigned = true) (m : UInt64) :
    m > t.max.toUInt64 + (if isNegative then 1 else 0) ↔
      t.max + (if isNegative then 1 else 0) < m.toNat := by
  have hlt := maxMagnitude_lt t hneg
  have hmax : t.max.toUInt64.toNat = t.max := toNat_toUInt64_of_lt (by omega)
  rw [gt_iff_lt, UInt64.lt_iff_toNat_lt, UInt64.toNat_add, hmax]
  cases isNegative with
  | false =>
      simp only [Bool.false_eq_true, if_false, UInt64.toNat_zero, add_zero]
      rw [Nat.mod_eq_of_lt (by omega)]
  | true =>
      simp only [if_true, UInt64.toNat_one] at hlt ⊢
      rw [Nat.mod_eq_of_lt hlt]

/-! ## The parser -/

/-- The check for a `-` before an unsigned type passes when a `-` is only read for a signed
type. -/
theorem negativeCheck_eq_false {t : NumberType} {isNegative : Bool}
    (hneg : isNegative = true → t.isSigned = true) : (isNegative && !t.isSigned) = false := by
  cases isNegative with
  | false => rfl
  | true => simp [hneg rfl]

/-- **What a successful parse read.**  A parse that succeeds with `v` read a sign, the prefix
for the base and digits below the base it selects, whose value with the sign is `v` and lies in
the type's range. -/
theorem spells_of_eq_ok {t : NumberType} {base : ℤ} {s : List Char} {v : ℤ}
    (h : parseNumberFromStringWithBase t s base = .ok v) : Spells t base s v := by
  have hbase : base = 0 ∨ 2 ≤ base ∧ base ≤ 36 := by
    by_contra hbase
    rw [parseNumberFromStringWithBase, if_pos (by omega)] at h
    cases h
  obtain ⟨sign, hs, hsign⟩ := extractSign_spec s
  obtain ⟨pre, hr, hpre⟩ := extractBase_spec hbase (extractSign s).1
  rw [parseNumberFromStringWithBase, if_neg (by omega)] at h
  dsimp only at h
  generalize extractSign s = signless at h hs hsign hr hpre
  obtain ⟨signless, isNegative⟩ := signless
  generalize extractBase signless base = extracted at h hr hpre
  obtain ⟨ds, b⟩ := extracted
  dsimp only at h hs hsign hr hpre
  have hb := hpre.base_bounds
  have hneg : isNegative = true → t.isSigned = true := by
    intro hn
    by_contra hs'
    have hunsigned : t.isSigned = false := by simpa using hs'
    rw [if_pos (by rw [hn, hunsigned]; rfl)] at h
    cases h
  rw [if_neg (by rw [negativeCheck_eq_false hneg]; decide)] at h
  have hne : ds ≠ [] := by
    rintro rfl
    rw [List.isEmpty_nil, if_pos rfl] at h
    cases h
  rw [if_neg (by simpa using hne)] at h
  split at h
  · cases h
  next m hm =>
    have hcheck : m.toNat ≤ t.max + (if isNegative then 1 else 0) := by
      by_contra hover
      rw [if_pos ((gt_maxMagnitude_iff t hneg m).mpr (by omega))] at h
      cases h
    rw [if_neg (by rw [gt_maxMagnitude_iff t hneg m]; omega), Except.ok.injEq,
      ofUInt64_signedValue t hneg m hcheck] at h
    obtain ⟨hvalid, -, hmval⟩ :=
      (parseMagnitudeFromStringWithBase_eq_ok_iff s (by omega) (by omega) ds m).mp hm
    rw [hmval] at h hcheck
    obtain ⟨hmin, hmax⟩ := (le_maxMagnitude_iff t hneg _).mp hcheck
    refine ⟨sign, pre, ds, isNegative, b.toNat, by rw [hs, hr, List.append_assoc], hsign, hneg,
      hpre, hne, hvalid, h.symm, ?_, ?_⟩
    · rw [← h]
      exact hmin
    · rw [← h]
      exact hmax

/-- **A spelled number is parsed.**  A string that spells `v` for the type in the base is
parsed to `v`. -/
theorem eq_ok_of_spells {t : NumberType} {base : ℤ} {s : List Char} {v : ℤ}
    (h : Spells t base s v) : parseNumberFromStringWithBase t s base = .ok v := by
  obtain ⟨sign, pre, ds, isNegative, b, rfl, hsign, hneg, hpre, hne, hvalid, rfl, hmin, hmax⟩ := h
  have hb := hpre.base_bounds
  have hbase := hpre.arg_valid
  have hcheck := (le_maxMagnitude_iff t hneg (valueOf b ds)).mpr ⟨hmin, hmax⟩
  have hfit : valueOf b ds < 2 ^ 64 := lt_of_le_of_lt hcheck (maxMagnitude_lt t hneg)
  have hm := toNat_toUInt64_of_lt hfit
  have hmag : parseMagnitudeFromStringWithBase b.toUInt64 (sign ++ pre ++ ds) ds =
      .ok (valueOf b ds).toUInt64 :=
    (parseMagnitudeFromStringWithBase_eq_ok_iff _ (by omega) (by omega) ds _).mpr
      ⟨hvalid, hfit, hm⟩
  have hsign' : extractSign (sign ++ pre ++ ds) = (pre ++ ds, isNegative) := by
    rw [List.append_assoc]
    exact extractSign_append hsign (hpre.ne_sign hvalid)
  rw [parseNumberFromStringWithBase, if_neg (by omega)]
  dsimp only
  rw [hsign', extractBase_of_basePrefix hpre hne hvalid]
  dsimp only
  rw [if_neg (by rw [negativeCheck_eq_false hneg]; decide), if_neg (by simpa using hne),
    Int.toNat_natCast, hmag]
  dsimp only
  rw [if_neg (by rw [gt_maxMagnitude_iff t hneg, hm]; omega),
    ofUInt64_signedValue t hneg _ (by rw [hm]; exact hcheck), hm]

/-! ## Reading back a rendering -/

/-- The digits of a rendering are digits of the base, and read back as the number. -/
theorem renderMagnitude_spec {b : ℕ} (hb : 2 ≤ b) (hb36 : b ≤ 36) (n : ℕ) :
    renderMagnitude b n ≠ [] ∧ (∀ c ∈ renderMagnitude b n, digitValue c < b) ∧
      valueOf b (renderMagnitude b n) = n := by
  unfold renderMagnitude
  split_ifs with hn
  · subst hn
    refine ⟨List.cons_ne_nil _ _, ?_, rfl⟩
    simp only [List.mem_singleton, forall_eq]
    exact lt_of_lt_of_le (by decide) hb
  · have hdigit : ∀ d ∈ Nat.digits b n, d < b := fun d hd => Nat.digits_lt_base (by omega) hd
    have hback : ∀ d ∈ Nat.digits b n, digitValue (digitChar d) = d :=
      fun d hd => digitValue_digitChar (by have := hdigit d hd; omega)
    refine ⟨?_, ?_, ?_⟩
    · simpa using Nat.digits_ne_nil_iff_ne_zero.mpr hn
    · intro c hc
      obtain ⟨d, hd, rfl⟩ := List.mem_map.mp (List.mem_reverse.mp hc)
      rw [hback d hd]
      exact hdigit d hd
    · have hmap : ((Nat.digits b n).map digitChar).map digitValue = Nat.digits b n := by
        rw [List.map_map]
        conv_rhs => rw [← List.map_id (Nat.digits b n)]
        exact List.map_congr_left hback
      rw [valueOf, List.map_reverse, List.reverse_reverse, hmap, Nat.ofDigits_digits]

/-- **The canonical rendering spells the value.**  For every value of the type and every base
from 2 to 36, the rendering in that base spells the value. -/
theorem spells_render (t : NumberType) {b : ℕ} (hb : 2 ≤ b) (hb36 : b ≤ 36) {v : ℤ}
    (hmin : t.min ≤ v) (hmax : v ≤ t.max) : Spells t b (render b v) v := by
  obtain ⟨hne, hvalid, hval⟩ := renderMagnitude_spec hb hb36 v.natAbs
  by_cases hv : v < 0
  · have hsigned : t.isSigned = true := by
      by_contra hs
      simp only [NumberType.min, hs, if_false] at hmin
      omega
    refine ⟨['-'], [], renderMagnitude b v.natAbs, true, b, ?_, Or.inr (Or.inr ⟨rfl, rfl⟩),
      fun _ => hsigned, .plain hb hb36, hne, hvalid, ?_, hmin, hmax⟩
    · simp [render, hv]
    · rw [signedValue, if_pos rfl, hval, Int.ofNat_natAbs_of_nonpos hv.le, neg_neg]
  · refine ⟨[], [], renderMagnitude b v.natAbs, false, b, ?_, Or.inl ⟨rfl, rfl⟩,
      fun h => absurd h (by decide), .plain hb hb36, hne, hvalid, ?_, hmin, hmax⟩
    · simp [render, hv]
    · rw [signedValue, if_neg (by decide), hval, Int.natAbs_of_nonneg (by omega)]

/-! ## The parser, whole -/

/-- **`parseNumberFromStringWithBase` reads exactly the spelled numbers.**  For every integral
type, every base argument and every string, the parse succeeds with `v` exactly when the string
spells `v`.  Every value of the type, `min()` included, is read back from its rendering in every
base from 2 to 36. -/
theorem parseNumberFromStringWithBase_spec (t : NumberType) :
    (∀ (base : ℤ) (s : List Char) (v : ℤ),
        parseNumberFromStringWithBase t s base = .ok v ↔ Spells t base s v) ∧
      ∀ (b : ℕ) (v : ℤ), 2 ≤ b → b ≤ 36 → t.min ≤ v → v ≤ t.max →
        parseNumberFromStringWithBase t (render b v) b = .ok v := by
  refine ⟨fun base s v => ⟨spells_of_eq_ok, eq_ok_of_spells⟩, ?_⟩
  intro b v hb hb36 hmin hmax
  exact eq_ok_of_spells (spells_render t hb hb36 hmin hmax)

/-- The smallest `int8_t`, rendered in base 16 as `-80`, is read back. -/
theorem parseNumberFromStringWithBase_int8_min :
    parseNumberFromStringWithBase NumberType.int8_t (render 16 (-128)) 16 = .ok (-128) :=
  (parseNumberFromStringWithBase_spec NumberType.int8_t).2 16 (-128) (by decide) (by decide)
    (by decide) (by decide)

example : parseNumberFromStringWithBase NumberType.int8_t ['-', '0', 'x', '8', '0'] 0 =
    .ok (-128) := by
  decide

example : parseNumberFromStringWithBase NumberType.uint8_t ['2', '5', '6'] 10 =
    .error ⟨.failedToParse, "Overflow"⟩ := by
  decide

/-! ## The errors -/

/-- A digit fails only with `FailedToParse`. -/
theorem parseMagnitudeStep_error_code {base : UInt64} {wholeString : List Char} {n : UInt64}
    {c : Char} {st : Status} (h : parseMagnitudeStep base wholeString n c = .error st) :
    st.code = .failedToParse := by
  unfold parseMagnitudeStep at h
  dsimp only at h
  split_ifs at h <;> cases h <;> rfl

/-- **The error codes.**  A parse fails with `BadValue` when the base is invalid, and with
`FailedToParse` otherwise. -/
theorem parseNumberFromStringWithBase_error_code {t : NumberType} {s : List Char} {base : ℤ}
    {st : Status} (h : parseNumberFromStringWithBase t s base = .error st) :
    st.code = if base = 1 ∨ base < 0 ∨ base > 36 then .badValue else .failedToParse := by
  unfold parseNumberFromStringWithBase at h
  dsimp only at h
  split_ifs at h with hinvalid
  · cases h
    rw [if_pos hinvalid]
  · cases h
    rw [if_neg hinvalid]
  · cases h
    rw [if_neg hinvalid]
  all_goals
    rw [if_neg hinvalid]
    split at h
    · next status hstatus =>
      cases h
      exact Except.foldlM_error _ _ (fun _ _ _ => parseMagnitudeStep_error_code) _ _ _ hstatus
    · split_ifs at h <;> cases h <;> rfl

end ParseNumber

end Mongo
