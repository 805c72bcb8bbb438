import Mongo.Storage.KeyString

/-!
# The RecordId codec: layout, round trips and order

For a repr `0 ≤ r < 2 ^ 63`, `appendRecordId` writes `extraBytesNeeded r + 2` bytes whose layout
is `recordIdBytes`: the count `e` and the top 5 bits of the value, `e` middle bytes, and the low
5 bits with `e` again (`appendRecordId_eq`).  Read as one big-endian number the bytes are
`e * 2 ^ (8e + 13) + 8 r + e` (`recordIdBytes_eq_beBytes`), and `e` grows with `r`
(`extraBytesNeeded_mono`).  So

* `decodeRecordId` reads the repr back and stops right after the last byte
  (`decodeRecordId_append`), and `decodeRecordIdAtEnd` finds it from the last byte alone
  (`decodeRecordIdAtEnd_append`);
* the bytes of a smaller repr are lexicographically smaller (`recordIdBytes_lt_iff`): on one width
  because the big-endian numbers are, across widths because the first byte starts with `e`;
* `KeyString::compare` of two buffers with a common prefix compares what follows the prefix
  (`compare_append_left`), which is the lexicographic order (`compare_eq`).
-/

namespace Mongo
namespace KeyString

open BigEndian

/-! ## The width -/

theorem countLeadingZeros64_pos {v : ℕ} (hv : v ≠ 0) (hlt : v < 2 ^ 63) :
    64 - countLeadingZeros64 v = Nat.log2 v + 1 := by
  have hlog : Nat.log2 v < 63 := (Nat.log2_lt hv).mpr hlt
  unfold countLeadingZeros64
  rw [if_neg hv]
  omega

/-- The value fits the `8 e + 10` bits between the two 3-bit counts, and `e` is the least such
count. -/
theorem extraBytesNeeded_spec {v : ℕ} (hv : v < 2 ^ 63) :
    extraBytesNeeded v ≤ 7 ∧ v < 2 ^ (8 * extraBytesNeeded v + 10) ∧
      (extraBytesNeeded v = 0 ∨ 2 ^ (8 * extraBytesNeeded v + 2) ≤ v) := by
  by_cases hz : v = 0
  · subst hz
    simp [extraBytesNeeded, countLeadingZeros64]
  have hbits := countLeadingZeros64_pos hz hv
  have hlog : Nat.log2 v < 63 := (Nat.log2_lt hz).mpr hv
  have hupper : v < 2 ^ (Nat.log2 v + 1) := Nat.lt_log2_self
  have hlower : 2 ^ Nat.log2 v ≤ v := Nat.log2_self_le hz
  unfold extraBytesNeeded
  simp only [hbits]
  split
  · refine ⟨by omega, lt_of_lt_of_le hupper (Nat.pow_le_pow_right (by decide) (by omega)),
      Or.inl rfl⟩
  · refine ⟨by omega, lt_of_lt_of_le hupper (Nat.pow_le_pow_right (by decide) (by omega)),
      Or.inr (le_trans (Nat.pow_le_pow_right (by decide) (by omega)) hlower)⟩

/-- **A larger value never takes fewer bytes.** -/
theorem extraBytesNeeded_mono {v w : ℕ} (hw : w < 2 ^ 63) (hvw : v ≤ w) :
    extraBytesNeeded v ≤ extraBytesNeeded w := by
  obtain ⟨-, hv, hvmin⟩ := extraBytesNeeded_spec (lt_of_le_of_lt hvw hw)
  obtain ⟨-, hw', -⟩ := extraBytesNeeded_spec hw
  rcases hvmin with h | h
  · rw [h]
    exact Nat.zero_le _
  · have hlt : 2 ^ (8 * extraBytesNeeded v + 2) < 2 ^ (8 * extraBytesNeeded w + 10) :=
      lt_of_le_of_lt (le_trans h hvw) hw'
    have := (Nat.pow_lt_pow_iff_right (by decide)).mp hlt
    omega

/-! ## The layout -/

/-- The bytes `appendRecordId` writes for `value`, as numbers: the count `e` and the top 5 bits,
the `e` middle bytes, the low 5 bits and `e` again. -/
def recordIdBytes (value : ℕ) : List ℕ :=
  (extraBytesNeeded value * 32 + value / 2 ^ (8 * extraBytesNeeded value + 5)) ::
    (beBytes (extraBytesNeeded value) (value / 32) ++ [8 * (value % 32) + extraBytesNeeded value])

theorem pow_eight_mul_add (e k : ℕ) : 2 ^ (8 * e + k) = 2 ^ k * 256 ^ e := by
  rw [Nat.pow_add, Nat.pow_mul, Nat.mul_comm]

theorem length_recordIdBytes (v : ℕ) : (recordIdBytes v).length = extraBytesNeeded v + 2 := by
  simp [recordIdBytes]

/-- The top 5 bits of the value, which the first byte holds. -/
theorem top_lt {v : ℕ} (hv : v < 2 ^ 63) : v / 2 ^ (8 * extraBytesNeeded v + 5) < 32 := by
  obtain ⟨-, hfit, -⟩ := extraBytesNeeded_spec hv
  apply Nat.div_lt_of_lt_mul
  rwa [show 8 * extraBytesNeeded v + 10 = (8 * extraBytesNeeded v + 5) + 5 by omega,
    Nat.pow_add] at hfit

theorem recordIdBytes_lt {v : ℕ} (hv : v < 2 ^ 63) : ∀ b ∈ recordIdBytes v, b < 256 := by
  have he := (extraBytesNeeded_spec hv).1
  have htop := top_lt hv
  intro b hb
  rcases List.mem_cons.mp hb with rfl | hb
  · omega
  rcases List.mem_append.mp hb with hb | hb
  · exact lt_of_mem_beBytes hb
  · rw [List.mem_singleton.mp hb]
    omega

theorem ofNat_eq_ofNat_iff {a b : ℕ} : UInt8.ofNat a = UInt8.ofNat b ↔ a % 256 = b % 256 := by
  rw [← UInt8.toNat_inj, UInt8.toNat_ofNat', UInt8.toNat_ofNat']

/-- **What `appendRecordId` writes.** -/
theorem appendRecordId_eq (buf : List UInt8) {r : ℤ} (h0 : 0 ≤ r) (hr : r < 2 ^ 63) :
    appendRecordId buf r = some (buf ++ (recordIdBytes r.toNat).map UInt8.ofNat) := by
  have hv : r.toNat < 2 ^ 63 := by omega
  have he := (extraBytesNeeded_spec hv).1
  set v := r.toNat
  set e := extraBytesNeeded v with he_def
  have hfirst : e <<< 5 ||| v >>> (5 + e * 8) = e * 32 + v / 2 ^ (8 * e + 5) := by
    rw [Nat.shiftRight_eq_div_pow, show 5 + e * 8 = 8 * e + 5 by omega,
      shiftLeft_or_of_lt (top_lt hv)]
    rfl
  have hmiddle : (if e ≠ 0 then ((beBytes 8 (v >>> 5)).drop (8 - e)).map UInt8.ofNat else []) =
      (beBytes e (v / 32)).map UInt8.ofNat := by
    split
    · rw [Nat.shiftRight_eq_div_pow, drop_beBytes (by omega)]
    · rename_i hz
      rw [show e = 0 by omega]
      rfl
  have hlast : UInt8.ofNat (v <<< 3 ||| e) = UInt8.ofNat (8 * (v % 32) + e) := by
    rw [shiftLeft_or_of_lt (show e < 2 ^ 3 by omega), ofNat_eq_ofNat_iff]
    omega
  simp only [appendRecordId, if_neg (not_lt.mpr h0), Option.bind_eq_bind, Option.bind_some]
  rw [← he_def, hfirst, hmiddle, hlast]
  simp [recordIdBytes, ← he_def]

/-! ## Decoding -/

theorem toNat_ofNat_of_lt {b : ℕ} (h : b < 256) : (UInt8.ofNat b).toNat = b := by
  rw [UInt8.toNat_ofNat']
  exact Nat.mod_eq_of_lt h

theorem toInt64_of_lt {x : ℕ} (h : x < 2 ^ 63) : toInt64 x = x := by
  unfold toInt64
  rw [if_pos h]

/-- The two fields of the first byte. -/
theorem firstByte_fields {e t : ℕ} (ht : t < 32) :
    (e * 32 + t) >>> 5 = e ∧ (e * 32 + t) &&& 0x1f = t := by
  rw [Nat.shiftRight_eq_div_pow, show (0x1f : ℕ) = 2 ^ 5 - 1 from rfl,
    Nat.and_two_pow_sub_one_eq_mod]
  omega

/-- The two fields of the last byte. -/
theorem lastByte_fields {e l : ℕ} (he : e < 8) :
    (8 * l + e) &&& 0x7 = e ∧ (8 * l + e) >>> 3 = l := by
  rw [Nat.shiftRight_eq_div_pow, show (0x7 : ℕ) = 2 ^ 3 - 1 from rfl,
    Nat.and_two_pow_sub_one_eq_mod]
  omega

/-- The loop of `decodeRecordId` folds the middle bytes into the accumulator, and stops before
what follows them. -/
theorem decodeExtraBytes_map (rest : List UInt8) :
    ∀ (acc : ℕ) (bytes : List ℕ), (∀ b ∈ bytes, b < 256) → beFold acc bytes < 2 ^ 64 →
      decodeExtraBytes bytes.length acc (bytes.map UInt8.ofNat ++ rest) =
        some (beFold acc bytes, rest)
  | _, [], _, _ => rfl
  | acc, b :: bytes, hb, hfit => by
      have hb0 : b < 256 := hb b (List.mem_cons_self ..)
      have hstep : beFold acc (b :: bytes) = beFold (acc * 256 + b) bytes := rfl
      have hle : acc * 256 + b ≤ beFold (acc * 256 + b) bytes := le_beFold bytes
      have hacc : (acc <<< 8 ||| (UInt8.ofNat b).toNat) % 2 ^ 64 = acc * 256 + b := by
        rw [toNat_ofNat_of_lt hb0, shiftLeft_or_of_lt (show b < 2 ^ 8 by omega)]
        omega
      rw [List.length_cons, List.map_cons, List.cons_append, decodeExtraBytes, hacc, hstep]
      exact decodeExtraBytes_map rest _ bytes (fun c hc => hb c (List.mem_cons_of_mem b hc))
        (hstep ▸ hfit)

/-- **`decodeRecordId` reads the value back and stops right after its last byte.** -/
theorem decodeRecordId_append {v : ℕ} (hv : v < 2 ^ 63) (rest : List UInt8) :
    decodeRecordId ((recordIdBytes v).map UInt8.ofNat ++ rest) = some ((v : ℤ), rest) := by
  have he := (extraBytesNeeded_spec hv).1
  have htop := top_lt hv
  set e := extraBytesNeeded v with he_def
  set t := v / 2 ^ (8 * e + 5) with ht_def
  have hfirst : (UInt8.ofNat (e * 32 + t)).toNat = e * 32 + t := toNat_ofNat_of_lt (by omega)
  obtain ⟨hcount, htopbits⟩ := firstByte_fields (e := e) htop
  have hmid : beFold t (beBytes e (v / 32)) = v / 32 := by
    have ht : t = v / 32 / 256 ^ e := by
      rw [ht_def, Nat.div_div_eq_div_mul, pow_eight_mul_add]
      rfl
    rw [beFold_beBytes, ht, Nat.div_add_mod']
  have hmidbytes := decodeExtraBytes_map (UInt8.ofNat (8 * (v % 32) + e) :: rest) t
    (beBytes e (v / 32)) (fun b hb => lt_of_mem_beBytes hb) (by omega)
  rw [length_beBytes, hmid] at hmidbytes
  have hlast : (UInt8.ofNat (8 * (v % 32) + e)).toNat = 8 * (v % 32) + e :=
    toNat_ofNat_of_lt (by omega)
  obtain ⟨hlastcount, hlow⟩ := lastByte_fields (l := v % 32) (show e < 8 by omega)
  have hvalue : ((v / 32) <<< 5 ||| v % 32) % 2 ^ 64 = v := by
    rw [shiftLeft_or_of_lt (show v % 32 < 2 ^ 5 by omega)]
    omega
  simp only [recordIdBytes, ← he_def, ← ht_def, List.map_cons, List.map_append, List.map_nil,
    List.cons_append, List.append_assoc, List.nil_append]
  simp only [decodeRecordId, hfirst, hcount, htopbits, hmidbytes, hlast, hlastcount, hlow,
    hvalue, toInt64_of_lt hv, if_true]

/-- **`decodeRecordIdAtEnd` finds the value from the last byte of any buffer ending in it.** -/
theorem decodeRecordIdAtEnd_append {v : ℕ} (hv : v < 2 ^ 63) (B : List UInt8) :
    decodeRecordIdAtEnd (B ++ (recordIdBytes v).map UInt8.ofNat) = some (v : ℤ) := by
  have he := (extraBytesNeeded_spec hv).1
  set e := extraBytesNeeded v with he_def
  have hlen : ((recordIdBytes v).map UInt8.ofNat).length = e + 2 := by
    rw [List.length_map, length_recordIdBytes]
  have hlastbyte : (B ++ (recordIdBytes v).map UInt8.ofNat).getLastD 0 =
      UInt8.ofNat (8 * (v % 32) + e) := by
    rw [recordIdBytes, ← he_def, ← List.cons_append, List.map_append, List.map_singleton,
      ← List.append_assoc, List.getLastD_concat]
  have hsize : 2 + ((UInt8.ofNat (8 * (v % 32) + e)).toNat &&& 0x7) = e + 2 := by
    rw [toNat_ofNat_of_lt (by omega), (lastByte_fields (show e < 8 by omega)).1, Nat.add_comm]
  have hdrop : (B ++ (recordIdBytes v).map UInt8.ofNat).drop
      ((B ++ (recordIdBytes v).map UInt8.ofNat).length - (e + 2)) =
        (recordIdBytes v).map UInt8.ofNat := by
    rw [List.length_append, hlen, Nat.add_sub_cancel, List.drop_left]
  unfold decodeRecordIdAtEnd
  rw [if_neg (by rw [List.length_append, hlen]; omega), hlastbyte]
  dsimp only
  rw [hsize,
    if_neg (by rw [List.length_append, hlen]; omega), hdrop, ← List.append_nil
      ((recordIdBytes v).map UInt8.ofNat), decodeRecordId_append hv]
  rfl

/-! ## Order -/

/-- The big-endian number the bytes of `value` write: the value between two copies of the
count. -/
def recordIdCode (value : ℕ) : ℕ :=
  extraBytesNeeded value * 2 ^ (8 * extraBytesNeeded value + 13) + 8 * value +
    extraBytesNeeded value

theorem recordIdCode_lt {v : ℕ} (hv : v < 2 ^ 63) :
    recordIdCode v < 256 ^ (extraBytesNeeded v + 2) := by
  obtain ⟨he, hfit, -⟩ := extraBytesNeeded_spec hv
  unfold recordIdCode
  rw [pow_eight_mul_add] at hfit ⊢
  have hP : 256 ^ (extraBytesNeeded v + 2) = 65536 * 256 ^ extraBytesNeeded v := by
    rw [Nat.pow_add, Nat.mul_comm]
  have hcount : extraBytesNeeded v * (2 ^ 13 * 256 ^ extraBytesNeeded v) ≤
      7 * (2 ^ 13 * 256 ^ extraBytesNeeded v) := Nat.mul_le_mul_right _ he
  rw [hP]
  omega

/-- **Read as one big-endian number, the bytes of `value` are `recordIdCode value`.** -/
theorem recordIdBytes_eq_beBytes {v : ℕ} (hv : v < 2 ^ 63) :
    recordIdBytes v = beBytes (extraBytesNeeded v + 2) (recordIdCode v) := by
  obtain ⟨he, -, -⟩ := extraBytesNeeded_spec hv
  have htop := top_lt hv
  unfold recordIdBytes recordIdCode
  generalize extraBytesNeeded v = e at he htop ⊢
  have hP : 0 < 256 ^ e := Nat.pow_pos (by decide)
  have hhigh : e * 2 ^ (8 * e + 13) = e * 32 * 256 ^ (e + 1) := by
    rw [pow_eight_mul_add, Nat.pow_succ]
    ring
  have hhigh' : e * 2 ^ (8 * e + 13) = e * 32 * 256 ^ e * 256 := by
    rw [hhigh, Nat.pow_succ]
    ring
  have hquot : (e * 2 ^ (8 * e + 13) + 8 * v + e) / 256 ^ (e + 1) =
      v / 2 ^ (8 * e + 5) + e * 32 := by
    rw [hhigh, Nat.add_assoc, Nat.add_comm, Nat.add_mul_div_right _ _ (Nat.pow_pos (by decide)),
      show 256 ^ (e + 1) = 8 * 2 ^ (8 * e + 5) by rw [pow_eight_mul_add, Nat.pow_succ]; ring,
      ← Nat.div_div_eq_div_mul, show (8 * v + e) / 8 = v by omega]
  have hfirst : (e * 2 ^ (8 * e + 13) + 8 * v + e) / 256 ^ (e + 1) % 256 =
      e * 32 + v / 2 ^ (8 * e + 5) := by
    rw [hquot]
    generalize v / 2 ^ (8 * e + 5) = t at htop ⊢
    omega
  have hmiddle : (e * 2 ^ (8 * e + 13) + 8 * v + e) / 256 = v / 32 + e * 32 * 256 ^ e := by
    rw [hhigh', Nat.add_assoc, Nat.add_comm, Nat.add_mul_div_right _ _ (by decide)]
    omega
  have hlast : (e * 2 ^ (8 * e + 13) + 8 * v + e) % 256 = 8 * (v % 32) + e := by
    rw [hhigh', Nat.add_assoc, Nat.add_comm, Nat.add_mul_mod_self_right]
    omega
  rw [beBytes, beBytes_succ_eq_append, hfirst, hmiddle, hlast, beBytes_add_mul]

/-- **The bytes of a smaller value are lexicographically smaller**: on one width because the
big-endian numbers are, across widths because the first byte starts with the count. -/
theorem recordIdBytes_lt_recordIdBytes {v w : ℕ} (hw : w < 2 ^ 63) (hvw : v < w) :
    recordIdBytes v < recordIdBytes w := by
  have hv := lt_trans hvw hw
  rcases Nat.lt_or_ge (extraBytesNeeded v) (extraBytesNeeded w) with hlt | hge
  · have htop := top_lt hv
    rw [recordIdBytes, recordIdBytes, List.cons_lt_cons_iff]
    left
    generalize v / 2 ^ (8 * extraBytesNeeded v + 5) = tv at htop ⊢
    generalize w / 2 ^ (8 * extraBytesNeeded w + 5) = tw
    omega
  · have heq : extraBytesNeeded v = extraBytesNeeded w :=
      le_antisymm (extraBytesNeeded_mono hw hvw.le) hge
    have hcv := recordIdCode_lt hv
    have hcw := recordIdCode_lt hw
    rw [recordIdBytes_eq_beBytes hv, recordIdBytes_eq_beBytes hw, heq]
    rw [heq] at hcv
    rw [beBytes_lt_beBytes_iff hcv hcw]
    unfold recordIdCode
    rw [heq]
    omega

theorem recordIdBytes_lt_iff {v w : ℕ} (hv : v < 2 ^ 63) (hw : w < 2 ^ 63) :
    recordIdBytes v < recordIdBytes w ↔ v < w := by
  constructor
  · intro h
    rcases Nat.lt_trichotomy v w with hvw | rfl | hwv
    · exact hvw
    · exact absurd h (lt_irrefl _)
    · exact absurd h (lt_asymm (recordIdBytes_lt_recordIdBytes hv hwv))
  · exact recordIdBytes_lt_recordIdBytes hw

/-! ## `KeyString::compare` -/

theorem memcmp_append (a b : List UInt8) (n : ℕ) :
    ∀ B : List UInt8, memcmp (B ++ a) (B ++ b) (B.length + n) = memcmp a b n
  | [] => by simp
  | x :: B => by
      rw [List.cons_append, List.cons_append, List.length_cons,
        show B.length + 1 + n = (B.length + n) + 1 by omega, memcmp, if_pos rfl, memcmp_append a b n B]

/-- Buffers with a common prefix compare as what follows it. -/
theorem compare_append_left (B a b : List UInt8) :
    KeyString.compare (B ++ a) (B ++ b) = KeyString.compare a b := by
  unfold KeyString.compare
  rw [List.length_append, List.length_append, Nat.add_min_add_left, memcmp_append]
  simp only [Nat.add_left_cancel_iff, Nat.add_lt_add_iff_left]

theorem compare_cons_cons (x y : UInt8) (a b : List UInt8) :
    KeyString.compare (x :: a) (y :: b) =
      if x = y then KeyString.compare a b else if x < y then -1 else 1 := by
  unfold KeyString.compare
  rw [List.length_cons, List.length_cons, Nat.add_min_add_right, memcmp]
  by_cases hxy : x = y
  · simp [hxy]
  · by_cases hlt : x < y <;> simp [hxy, hlt]

/-- **`KeyString::compare` is the lexicographic order of the bytes.** -/
theorem compare_eq : ∀ a b : List UInt8,
    KeyString.compare a b = if a < b then -1 else if a = b then 0 else 1
  | [], [] => by simp [KeyString.compare, memcmp]
  | [], y :: b => by simp [KeyString.compare, memcmp, List.nil_lt_cons]
  | x :: a, [] => by simp [KeyString.compare, memcmp]
  | x :: a, y :: b => by
      rw [compare_cons_cons, compare_eq a b]
      by_cases hxy : x = y
      · subst hxy
        have hlt : x :: a < x :: b ↔ a < b := by
          rw [List.cons_lt_cons_iff]
          simp
        simp [hlt]
      · have hlt : x :: a < y :: b ↔ x < y := by
          rw [List.cons_lt_cons_iff]
          simp [hxy]
        by_cases h : x < y <;> simp [hxy, hlt, h]

/-! ## The codec -/

/-- For reprs `0 ≤ r₁, r₂ ≤ 2 ^ 63 - 1`: `appendRecordId` appends 2 to 9 bytes; `decodeRecordId`
reads `r₁` back and leaves what follows; `decodeRecordIdAtEnd` reads it from the end of any
buffer; and the bytes, alone or after a common prefix, order as the reprs do. -/
theorem recordId_encoding_spec (r₁ r₂ : ℤ) (h₁ : 0 ≤ r₁ ∧ r₁ ≤ 2 ^ 63 - 1)
    (h₂ : 0 ≤ r₂ ∧ r₂ ≤ 2 ^ 63 - 1) :
    ∃ enc₁ enc₂ : List UInt8,
      (∀ buf, appendRecordId buf r₁ = some (buf ++ enc₁)) ∧
      (∀ buf, appendRecordId buf r₂ = some (buf ++ enc₂)) ∧
      2 ≤ enc₁.length ∧ enc₁.length ≤ 9 ∧
      (∀ rest, decodeRecordId (enc₁ ++ rest) = some (r₁, rest)) ∧
      (∀ B, decodeRecordIdAtEnd (B ++ enc₁) = some r₁) ∧
      (r₁ < r₂ ↔ enc₁ < enc₂) ∧
      ∀ B, KeyString.compare (B ++ enc₁) (B ++ enc₂) =
        if r₁ < r₂ then -1 else if r₁ = r₂ then 0 else 1 := by
  obtain ⟨h₁0, h₁1⟩ := h₁
  obtain ⟨h₂0, h₂1⟩ := h₂
  have hv₁ : r₁.toNat < 2 ^ 63 := by omega
  have hv₂ : r₂.toNat < 2 ^ 63 := by omega
  have hr₁ : ((r₁.toNat : ℕ) : ℤ) = r₁ := Int.toNat_of_nonneg h₁0
  have hr₂ : ((r₂.toNat : ℕ) : ℤ) = r₂ := Int.toNat_of_nonneg h₂0
  have horder : r₁ < r₂ ↔ (recordIdBytes r₁.toNat).map UInt8.ofNat <
      (recordIdBytes r₂.toNat).map UInt8.ofNat := by
    rw [map_ofNat_lt_map_ofNat_iff (recordIdBytes_lt hv₁) (recordIdBytes_lt hv₂),
      recordIdBytes_lt_iff hv₁ hv₂]
    omega
  have hinj : (recordIdBytes r₁.toNat).map UInt8.ofNat = (recordIdBytes r₂.toNat).map UInt8.ofNat →
      r₁ = r₂ := by
    intro h
    have hdec := decodeRecordId_append hv₁ []
    rw [h, decodeRecordId_append hv₂] at hdec
    rw [← hr₁, ← hr₂]
    exact (Prod.mk.inj (Option.some.inj hdec)).1.symm
  have hlen : ((recordIdBytes r₁.toNat).map UInt8.ofNat).length = extraBytesNeeded r₁.toNat + 2 := by
    rw [List.length_map, length_recordIdBytes]
  have he := (extraBytesNeeded_spec hv₁).1
  refine ⟨_, _, fun buf => appendRecordId_eq buf h₁0 (by omega),
    fun buf => appendRecordId_eq buf h₂0 (by omega), by omega, by omega, ?_, ?_, horder, ?_⟩
  · intro rest
    rw [decodeRecordId_append hv₁, hr₁]
  · intro B
    rw [decodeRecordIdAtEnd_append hv₁, hr₁]
  · intro B
    rw [compare_append_left, compare_eq]
    by_cases hlt : r₁ < r₂
    · rw [if_pos (horder.mp hlt), if_pos hlt]
    · rw [if_neg (mt horder.mpr hlt), if_neg hlt]
      by_cases heq : r₁ = r₂
      · subst heq
        simp
      · rw [if_neg (mt hinj heq), if_neg heq]

/-- The reprs `2 ^ 10 - 1` and `2 ^ 10`, on both sides of the first width boundary. -/
theorem recordId_encoding_spec_at_width_boundary :
    ((0 ≤ (1023 : ℤ) ∧ (1023 : ℤ) ≤ 2 ^ 63 - 1) ∧ (0 ≤ (1024 : ℤ) ∧ (1024 : ℤ) ≤ 2 ^ 63 - 1)) ∧
    ∃ enc₁ enc₂ : List UInt8,
      (∀ buf, appendRecordId buf 1023 = some (buf ++ enc₁)) ∧
      (∀ buf, appendRecordId buf 1024 = some (buf ++ enc₂)) ∧
      2 ≤ enc₁.length ∧ enc₁.length ≤ 9 ∧
      (∀ rest, decodeRecordId (enc₁ ++ rest) = some (1023, rest)) ∧
      (∀ B, decodeRecordIdAtEnd (B ++ enc₁) = some 1023) ∧
      ((1023 : ℤ) < 1024 ↔ enc₁ < enc₂) ∧
      ∀ B, KeyString.compare (B ++ enc₁) (B ++ enc₂) =
        if (1023 : ℤ) < 1024 then -1 else if (1023 : ℤ) = 1024 then 0 else 1 :=
  have h₁ : 0 ≤ (1023 : ℤ) ∧ (1023 : ℤ) ≤ 2 ^ 63 - 1 := by decide
  have h₂ : 0 ≤ (1024 : ℤ) ∧ (1024 : ℤ) ≤ 2 ^ 63 - 1 := by decide
  ⟨⟨h₁, h₂⟩, recordId_encoding_spec 1023 1024 h₁ h₂⟩

end KeyString
end Mongo
