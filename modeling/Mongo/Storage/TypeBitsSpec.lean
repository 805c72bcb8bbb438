import Mongo.Storage.TypeBits

/-!
# TypeBits round trip

`appendBits` appends a sequence of bits one `appendBit` at a time.  What it builds is described
by `Packed t bs`: the bit count, the all-zeros flag, the size byte and every bit of `bs` at its
place, low to high within its data byte.  `init` holds the empty sequence (`packed_init`) and
`appendBit` adds one bit (`Packed.appendBit`), so `appendBits` of at most
`8 * kMaxBytesNeeded` bits never writes outside `_buf` and holds them all (`packed_appendBits`).

`appendTypeBits` then writes one of the three encodings, and `fromBuffer` reads it back and
leaves what follows (`fromBuffer_appendTypeBits`): the data bytes it copies are those that hold
the bits, so a `Reader` returns the sequence (`readBits_eq`).
-/

namespace Mongo
namespace KeyString
namespace TypeBits

/-- The byte `appendBit` is given for a bit. -/
def bitValue (b : Bool) : UInt8 := if b then 1 else 0

/-- `appendBit` for each bit of a sequence, in order. -/
def appendBits (t : TypeBits) : List Bool → Option TypeBits
  | [] => some t
  | b :: bs => (t.appendBit (bitValue b)).bind fun t => appendBits t bs

/-! ## Bits of a byte -/

theorem testBit_bitValue (b : Bool) (k : ℕ) :
    (bitValue b).toNat.testBit k = (b && decide (k = 0)) := by
  cases b
  · simp [bitValue]
  · have h1 : (1 : UInt8).toNat = 2 ^ 0 := rfl
    rw [bitValue, if_pos rfl, h1, Nat.testBit_two_pow]
    simp [eq_comm]

/-- OR-ing in a bit at `off` sets that bit and no other. -/
theorem testBit_or_shiftLeft (x : UInt8) (b : Bool) {off : ℕ} (hoff : off < 8) (k : ℕ) :
    (x ||| (bitValue b <<< UInt8.ofNat off)).toNat.testBit k =
      (x.toNat.testBit k || (b && decide (k = off))) := by
  rw [UInt8.toNat_or, Nat.testBit_or, UInt8.toNat_shiftLeft, UInt8.toNat_ofNat',
    Nat.mod_eq_of_lt (show off < 2 ^ 8 by omega), Nat.mod_eq_of_lt hoff]
  cases b
  · simp [bitValue]
  · have h1 : (bitValue true).toNat = 1 := rfl
    rw [h1, Nat.one_shiftLeft, Nat.mod_eq_of_lt (Nat.pow_lt_pow_right (by decide) hoff),
      Nat.testBit_two_pow]
    simp [eq_comm]

/-- The test `readBit` makes of a byte is its bit. -/
theorem and_shiftLeft_ne_zero_iff (x : UInt8) {k : ℕ} (hk : k < 8) :
    x &&& (1 <<< UInt8.ofNat k) ≠ 0 ↔ x.toNat.testBit k = true := by
  have hmask : (x &&& (1 <<< UInt8.ofNat k)).toNat = x.toNat &&& 2 ^ k := by
    rw [UInt8.toNat_and, UInt8.toNat_shiftLeft, UInt8.toNat_ofNat',
      Nat.mod_eq_of_lt (show k < 2 ^ 8 by omega), Nat.mod_eq_of_lt hk]
    have h1 : (1 : UInt8).toNat = 1 := rfl
    rw [h1, Nat.one_shiftLeft, Nat.mod_eq_of_lt (Nat.pow_lt_pow_right (by decide) hk)]
  rw [ne_eq, ← UInt8.toNat_inj, hmask, show (0 : UInt8).toNat = 0 from rfl]
  constructor
  · intro h
    by_contra hbit
    apply h
    apply Nat.eq_of_testBit_eq
    intro i
    rw [Nat.testBit_and, Nat.testBit_two_pow, Nat.zero_testBit]
    by_cases hi : k = i
    · subst hi
      simpa using hbit
    · simp [hi]
  · intro h heq
    have := congrArg (fun y => Nat.testBit y k) heq
    simp only [Nat.testBit_and, Nat.testBit_two_pow, h, decide_true, Bool.and_self] at this
    exact absurd this (by simp)

/-- Reading a bit of a sequence past what was appended gives `false`. -/
theorem getD_append_singleton (bs : List Bool) (b : Bool) (c : ℕ) :
    (bs ++ [b]).getD c false =
      if c < bs.length then bs.getD c false else if c = bs.length then b else false := by
  simp only [List.getD_eq_getElem?_getD]
  split
  · rw [List.getElem?_append_left (by assumption)]
  · rw [List.getElem?_append_right (by omega)]
    split
    · subst_vars
      simp
    · rw [List.getElem?_singleton, if_neg (by omega)]
      rfl

theorem getD_of_length_le {bs : List Bool} {c : ℕ} (h : bs.length ≤ c) : bs.getD c false = false :=
  List.getD_eq_default _ _ h

/-! ## Appending -/

/-- `t` holds the bit sequence `bs`: its bit count, the all-zeros flag, the size byte, and each
bit of `bs` at its place, low to high within data byte `c / 8 + 1`. -/
structure Packed (t : TypeBits) (bs : List Bool) : Prop where
  curBit_eq : t.curBit = bs.length
  isAllZeros_eq : t.isAllZeros = !bs.any id
  sizeByte_eq : t.buf 0 = 0x80 ||| UInt8.ofNat ((bs.length + 7) / 8)
  testBit_eq : ∀ c, c < 8 * ((bs.length + 7) / 8) →
    (t.buf (c / 8 + 1)).toNat.testBit (c % 8) = bs.getD c false

theorem packed_init (version : Version) (raw : ℕ → UInt8) : Packed (init version raw) [] where
  curBit_eq := rfl
  isAllZeros_eq := rfl
  sizeByte_eq := by simp [init, reset, setSizeByte]
  testBit_eq := fun c hc => absurd hc (by simp)

/-- **One `appendBit` adds one bit**, inside `_buf` while fewer than `8 * kMaxBytesNeeded` bits
are held. -/
theorem Packed.appendBit {t : TypeBits} {bs : List Bool} (h : Packed t bs) (b : Bool)
    (hlen : bs.length < 8 * kMaxBytesNeeded) :
    ∃ t', t.appendBit (bitValue b) = some t' ∧ Packed t' (bs ++ [b]) := by
  unfold kMaxBytesNeeded at hlen
  have hbyte : (bs.length / 8 + 1) % 256 = bs.length / 8 + 1 := by omega
  have hin : ¬ kMaxBytesNeeded < bs.length / 8 + 1 := by
    unfold kMaxBytesNeeded
    omega
  have hzeros : (if bitValue b = 1 then false else t.isAllZeros) = !(bs ++ [b]).any id := by
    rw [h.isAllZeros_eq]
    cases b <;> simp [bitValue]
  have hlen' : (bs ++ [b]).length = bs.length + 1 := by simp
  unfold TypeBits.appendBit
  simp only [h.curBit_eq, hbyte, if_neg hin, hzeros]
  split
  · rename_i hoff
    refine ⟨_, rfl, ⟨hlen'.symm, rfl, ?_, ?_⟩⟩
    · simp only [setSizeByte, hlen']
      rw [Function.update_of_ne (by omega), Function.update_self,
        show (bs.length + 1 + 7) / 8 = bs.length / 8 + 1 by omega]
    · intro c hc
      rw [hlen'] at hc
      rw [getD_append_singleton]
      simp only [setSizeByte]
      by_cases hc' : c / 8 + 1 = bs.length / 8 + 1
      · rw [hc', Function.update_self, testBit_bitValue, if_neg (by omega)]
        by_cases hcl : c = bs.length
        · subst hcl
          simp [hoff]
        · have hlow : c % 8 ≠ 0 := by omega
          simp [hcl, hlow]
      · rw [Function.update_of_ne hc', Function.update_of_ne (by omega),
          if_pos (by omega), h.testBit_eq c (by omega)]
  · rename_i hoff
    refine ⟨_, rfl, ⟨hlen'.symm, rfl, ?_, ?_⟩⟩
    · dsimp only
      rw [Function.update_of_ne (by omega), h.sizeByte_eq, hlen',
        show (bs.length + 1 + 7) / 8 = (bs.length + 7) / 8 by omega]
    · intro c hc
      rw [hlen'] at hc
      rw [getD_append_singleton]
      dsimp only
      by_cases hc' : c / 8 + 1 = bs.length / 8 + 1
      · rw [hc', Function.update_self, testBit_or_shiftLeft _ _ (Nat.mod_lt _ (by decide)),
          ← hc', h.testBit_eq c (by omega)]
        by_cases hcl : c < bs.length
        · rw [if_pos hcl]
          have : c % 8 ≠ bs.length % 8 := by omega
          simp [this]
        · rw [if_neg hcl, getD_of_length_le (show bs.length ≤ c by omega)]
          by_cases hce : c = bs.length
          · subst hce
            simp
          · have : c % 8 ≠ bs.length % 8 := by omega
            simp [hce, this]
      · rw [Function.update_of_ne hc', if_pos (by omega), h.testBit_eq c (by omega)]

/-- **Appending at most `8 * kMaxBytesNeeded` bits stays inside `_buf` and holds them all.** -/
theorem packed_appendBits :
    ∀ (bs : List Bool) {t : TypeBits} {pre : List Bool}, Packed t pre →
      pre.length + bs.length ≤ 8 * kMaxBytesNeeded →
        ∃ t', appendBits t bs = some t' ∧ Packed t' (pre ++ bs)
  | [], t, pre, h, _ => ⟨t, rfl, by simpa using h⟩
  | b :: bs, t, pre, h, hlen => by
      obtain ⟨t₁, h₁, hp₁⟩ := h.appendBit b (by simp at hlen; omega)
      obtain ⟨t₂, h₂, hp₂⟩ := packed_appendBits bs hp₁ (by simp at hlen ⊢; omega)
      refine ⟨t₂, ?_, by simpa using hp₂⟩
      rw [appendBits, h₁]
      exact h₂

/-! ## Reading back -/

/-- The size byte of `m < 128` data bytes: `getSizeByte` reads `m` back and the high bit is set. -/
theorem sizeByte_fields : ∀ m < 128,
    (0x80 ||| UInt8.ofNat m) &&& 0x7f = UInt8.ofNat m ∧ (0x80 ||| UInt8.ofNat m) &&& 0x80 ≠ 0 := by
  decide

/-- `resetFromBuffer` of a `0` byte: all zeros. -/
theorem fromBuffer_zero (version : Version) (raw : ℕ → UInt8) (rest : List UInt8) :
    fromBuffer version raw (0 :: rest) = some ((init version raw).reset, rest) := by
  simp [fromBuffer, resetFromBuffer]

/-- `resetFromBuffer` of a byte with its high bit clear: that byte is the one data byte. -/
theorem fromBuffer_dataByte {b : UInt8} (hb : b &&& 0x80 = 0) (hb0 : b ≠ 0) (version : Version)
    (raw : ℕ → UInt8) (rest : List UInt8) :
    ∃ t', fromBuffer version raw (b :: rest) = some (t', rest) ∧ t'.isAllZeros = false ∧
      t'.buf 1 = b := by
  simp [fromBuffer, resetFromBuffer, setSizeByte, hb, hb0]

/-- `resetFromBuffer` of a size byte for `m` bytes: the next `m` bytes are the data bytes. -/
theorem fromBuffer_sizeByte {m : ℕ} (hm : m < 128) (data rest : List UInt8)
    (hdata : data.length = m) (version : Version) (raw : ℕ → UInt8) :
    ∃ t', fromBuffer version raw ((0x80 ||| UInt8.ofNat m) :: (data ++ rest)) = some (t', rest) ∧
      t'.isAllZeros = false ∧ ∀ i < m, t'.buf (i + 1) = data.getD i 0 := by
  obtain ⟨hsize, hhigh⟩ := sizeByte_fields m hm
  have hremaining : (UInt8.ofNat m).toNat = m := by
    rw [UInt8.toNat_ofNat']
    exact Nat.mod_eq_of_lt (by omega)
  simp only [fromBuffer, resetFromBuffer, if_pos hhigh, getSizeByte, Function.update_self, hsize,
    hremaining, List.length_append, hdata]
  rw [if_neg (by omega), List.drop_left' hdata]
  refine ⟨_, rfl, rfl, fun i hi => ?_⟩
  dsimp only
  rw [if_pos (by omega), Nat.add_sub_cancel, List.getD_append _ _ _ _ (by omega)]

theorem getD_eq_true_of_any {bs : List Bool} (h : bs.any id = true) :
    ∃ j < bs.length, bs.getD j false = true := by
  obtain ⟨x, hx, hxt⟩ := List.any_eq_true.mp h
  obtain ⟨j, hj, rfl⟩ := List.mem_iff_getElem.mp hx
  exact ⟨j, hj, by simpa [List.getD_eq_getElem?_getD, hj] using hxt⟩

/-- `readBit` at a held position returns that bit and moves on. -/
theorem Reader.readBit_eq {t : TypeBits} {c : ℕ} (hz : t.isAllZeros = false) (hc : c < 8 * 255) :
    (Reader.mk c t).readBit =
      (bitValue ((t.buf (c / 8 + 1)).toNat.testBit (c % 8)), Reader.mk (c + 1) t) := by
  have hbyte : (c / 8 + 1) % 256 = c / 8 + 1 := by omega
  have hbit : (if t.buf (c / 8 + 1) &&& (1 <<< UInt8.ofNat (c % 8)) ≠ 0 then (1 : UInt8) else 0) =
      bitValue ((t.buf (c / 8 + 1)).toNat.testBit (c % 8)) :=
    if_congr (and_shiftLeft_ne_zero_iff _ (Nat.mod_lt _ (by decide))) rfl rfl
  rw [Reader.readBit, if_neg (by simp [hz])]
  dsimp only
  rw [hbyte, hbit]

/-- **A `Reader` returns the bits held, from its position on.** -/
theorem Reader.readBits_eq {t : TypeBits} {bs : List Bool} (hz : t.isAllZeros = false)
    (hbits : ∀ c < bs.length, (t.buf (c / 8 + 1)).toNat.testBit (c % 8) = bs.getD c false)
    (hlen : bs.length ≤ 8 * kMaxBytesNeeded) :
    ∀ k c, c + k ≤ bs.length → (Reader.mk c t).readBits k = ((bs.drop c).take k).map bitValue
  | 0, c, _ => by simp [Reader.readBits]
  | k + 1, c, hk => by
      unfold kMaxBytesNeeded at hlen
      have hc : c < bs.length := by omega
      rw [Reader.readBits, Reader.readBit_eq hz (by omega), hbits c hc,
        Reader.readBits_eq hz hbits (by unfold kMaxBytesNeeded; omega) k (c + 1) (by omega),
        List.drop_eq_getElem_cons hc, List.take_succ_cons, List.map_cons,
        List.getD_eq_getElem _ _ hc]

/-- A `Reader` over all zeros returns zeros. -/
theorem Reader.readBits_of_isAllZeros {r : Reader} (hz : r.typeBits.isAllZeros = true) :
    ∀ k, r.readBits k = List.replicate k 0
  | 0 => rfl
  | k + 1 => by
      have hread : r.readBit = (0, r) := by rw [Reader.readBit, if_pos hz]
      rw [Reader.readBits, hread, Reader.readBits_of_isAllZeros hz k, List.replicate_succ]

end TypeBits

open TypeBits

/-- `appendTypeBits` only appends to the KeyString. -/
theorem appendTypeBits_eq_append (ks : List UInt8) (t : TypeBits) :
    appendTypeBits ks t = ks ++ appendTypeBits [] t := by
  unfold appendTypeBits
  split <;> simp

/-- **What `appendTypeBits` writes, `fromBuffer` reads back**, leaving the bytes after it, and a
`Reader` over it returns the bits held. -/
theorem fromBuffer_appendTypeBits {t : TypeBits} {bs : List Bool} (h : Packed t bs)
    (hlen : bs.length ≤ 8 * kMaxBytesNeeded) (version : Version) (raw : ℕ → UInt8)
    (rest : List UInt8) :
    ∃ t', fromBuffer version raw (appendTypeBits [] t ++ rest) = some (t', rest) ∧
      (Reader.mk 0 t').readBits bs.length = bs.map bitValue := by
  unfold kMaxBytesNeeded at hlen
  cases hz : t.isAllZeros
  · have hany : bs.any id = true := by simpa [h.isAllZeros_eq] using hz
    obtain ⟨j, hj, hjb⟩ := getD_eq_true_of_any hany
    have hsize : t.getSizeByte = UInt8.ofNat ((bs.length + 7) / 8) := by
      rw [getSizeByte, h.sizeByte_eq]
      exact (sizeByte_fields _ (by omega)).1
    have hread : ∀ t' : TypeBits, t'.isAllZeros = false →
        (∀ i, 1 ≤ i → i ≤ (bs.length + 7) / 8 → t'.buf i = t.buf i) →
          (Reader.mk 0 t').readBits bs.length = bs.map bitValue := by
      intro t' hz' hbuf
      have hbits : ∀ c < bs.length,
          (t'.buf (c / 8 + 1)).toNat.testBit (c % 8) = bs.getD c false := by
        intro c hc
        rw [hbuf _ (by omega) (by omega)]
        exact h.testBit_eq c (by omega)
      rw [Reader.readBits_eq hz' hbits (by unfold kMaxBytesNeeded; omega) _ 0 (by omega),
        List.drop_zero, List.take_length]
    by_cases hone : t.getSizeByte = 1 ∧ t.buf 1 &&& 0x80 = 0
    · have hm : (bs.length + 7) / 8 = 1 := by
        have h1 := congrArg UInt8.toNat (hsize.symm.trans hone.1)
        rw [UInt8.toNat_ofNat', Nat.mod_eq_of_lt (by omega)] at h1
        exact h1
      have hb0 : t.buf 1 ≠ 0 := by
        intro h0
        have hbit := h.testBit_eq j (by omega)
        rw [show j / 8 + 1 = 1 by omega, h0, hjb] at hbit
        exact absurd hbit (by simp)
      have hwrite : appendTypeBits [] t = [t.buf 1] := by
        simp [appendTypeBits, hz, getSize, getBuffer, hone]
      obtain ⟨t', hfrom, hz', hbuf⟩ := fromBuffer_dataByte hone.2 hb0 version raw rest
      refine ⟨t', by rw [hwrite]; exact hfrom, hread t' hz' fun i hi1 hi => ?_⟩
      rw [show i = 1 by omega, hbuf]
    · have hgetSize : t.getSize = (bs.length + 7) / 8 + 1 := by
        simp only [getSize, hz, Bool.false_eq_true, if_false]
        rw [if_neg hone, hsize, UInt8.toNat_ofNat', Nat.mod_eq_of_lt (by omega)]
      have hwrite : appendTypeBits [] t =
          t.buf 0 :: (List.range ((bs.length + 7) / 8)).map fun i => t.buf (i + 1) := by
        simp only [appendTypeBits, hz, Bool.false_eq_true, if_false, getBuffer, hgetSize,
          Nat.add_eq_right, List.nil_append]
        rw [if_neg (by omega), List.range_succ_eq_map, List.map_cons, List.map_map]
        simp [Function.comp_def]
      obtain ⟨t', hfrom, hz', hbuf⟩ := fromBuffer_sizeByte (m := (bs.length + 7) / 8) (by omega)
        ((List.range ((bs.length + 7) / 8)).map fun i => t.buf (i + 1)) rest (by simp) version raw
      refine ⟨t', ?_, hread t' hz' fun i hi1 hi => ?_⟩
      · rw [hwrite, List.cons_append, h.sizeByte_eq]
        exact hfrom
      · obtain ⟨k, rfl⟩ : ∃ k, i = k + 1 := ⟨i - 1, by omega⟩
        rw [hbuf k (by omega), List.getD_eq_getElem _ _ (by simp; omega)]
        simp
  · have hall : ∀ b ∈ bs, b = false := by
      have hany : bs.any id = false := by simpa [h.isAllZeros_eq] using hz
      simpa using hany
    refine ⟨(init version raw).reset, ?_, ?_⟩
    · simp [appendTypeBits, hz, fromBuffer_zero]
    · rw [Reader.readBits_of_isAllZeros rfl, eq_comm, List.map_eq_replicate_iff]
      intro b hb
      rw [hall b hb]
      rfl

/-- **TypeBits round trip**: at most `8 * kMaxBytesNeeded` bits appended to a fresh TypeBits fit;
what `appendTypeBits` then writes, `fromBuffer` reads back and stops where it ends, and a
`Reader` over the result returns the same bits. -/
theorem typeBits_round_trip (version : Version) (raw raw' : ℕ → UInt8) (bits : List Bool)
    (hlen : bits.length ≤ 8 * kMaxBytesNeeded) :
    ∃ t, appendBits (init version raw) bits = some t ∧
      ∀ ks rest, ∃ w t', appendTypeBits ks t = ks ++ w ∧
        fromBuffer version raw' (w ++ rest) = some (t', rest) ∧
        (Reader.mk 0 t').readBits bits.length = bits.map bitValue := by
  obtain ⟨t, ht, hp⟩ := packed_appendBits bits (packed_init version raw) (by simpa using hlen)
  refine ⟨t, ht, fun ks rest => ?_⟩
  obtain ⟨t', hfrom, hread⟩ := fromBuffer_appendTypeBits (by simpa using hp) hlen version raw' rest
  exact ⟨_, t', appendTypeBits_eq_append ks t, hfrom, hread⟩

/-- Nine bits, the last one set: two data bytes behind a size byte. -/
theorem typeBits_round_trip_nine_bits :
    [false, false, false, false, false, false, false, false, true].length ≤ 8 * kMaxBytesNeeded ∧
    ∃ t, appendBits (init .V1 (fun _ => 0)) [false, false, false, false, false, false, false, false, true] = some t ∧
      ∀ ks rest, ∃ w t', appendTypeBits ks t = ks ++ w ∧
        fromBuffer .V1 (fun _ => 0xff) (w ++ rest) = some (t', rest) ∧
        (Reader.mk 0 t').readBits [false, false, false, false, false, false, false, false, true].length =
          [false, false, false, false, false, false, false, false, true].map bitValue := by
  have hlen : [false, false, false, false, false, false, false, false, true].length ≤
      8 * kMaxBytesNeeded := by decide
  exact ⟨hlen, typeBits_round_trip .V1 (fun _ => 0) (fun _ => 0xff) _ hlen⟩

end KeyString
end Mongo
