import Mathlib

/-!
# Fixed-width big-endian numbers

`beBytes n x` is the last `n` bytes of `x`, most significant first, as a storage format writes a
number of a fixed width; `beFold` reads bytes back the way a decoder does, `acc := acc * 256 + b`.
They are inverse to each other below `256 ^ n` (`beFold_beBytes`), and on byte strings of one
width the lexicographic order is the order of the numbers written (`beBytes_lt_beBytes_iff`).
A string of bytes stored as `UInt8` compares as the string of their values
(`map_ofNat_lt_map_ofNat_iff`).

The bit operations a codec writes are read as arithmetic by `shiftLeft_or_of_lt`.
-/

namespace BigEndian

/-- The last `n` bytes of `x`, most significant first. -/
def beBytes : ℕ → ℕ → List ℕ
  | 0, _ => []
  | n + 1, x => x / 256 ^ n % 256 :: beBytes n x

/-- Bytes read into an accumulator, most significant first. -/
def beFold (acc : ℕ) (bytes : List ℕ) : ℕ :=
  bytes.foldl (fun acc b => acc * 256 + b) acc

variable {n m x y acc : ℕ}

@[simp] theorem length_beBytes : (beBytes n x).length = n := by
  induction n with
  | zero => rfl
  | succ n ih => simp [beBytes, ih]

theorem lt_of_mem_beBytes {b : ℕ} (h : b ∈ beBytes n x) : b < 256 := by
  induction n with
  | zero => simp [beBytes] at h
  | succ n ih =>
      rcases List.mem_cons.mp h with rfl | h
      · exact Nat.mod_lt _ (by decide)
      · exact ih h

/-- Only the last `n` bytes of the number are written. -/
theorem beBytes_mod : beBytes n (x % 256 ^ n) = beBytes n x := by
  induction n generalizing x with
  | zero => rfl
  | succ n ih =>
      have hdiv : x % 256 ^ (n + 1) / 256 ^ n % 256 = x / 256 ^ n % 256 := by
        rw [Nat.pow_succ, Nat.mod_mul_right_div_self, Nat.mod_mod]
      have hrest : x % 256 ^ (n + 1) % 256 ^ n = x % 256 ^ n :=
        Nat.mod_mod_of_dvd x (Nat.pow_dvd_pow 256 (Nat.le_succ n))
      have htail : beBytes n (x % 256 ^ (n + 1)) = beBytes n x := by
        rw [← ih, hrest, ih]
      rw [beBytes, beBytes, hdiv, htail]

theorem beBytes_add_mul (k : ℕ) : beBytes n (x + k * 256 ^ n) = beBytes n x := by
  rw [← beBytes_mod, Nat.add_mul_mod_self_right, beBytes_mod]

/-- The last byte comes off the end: the rest is the number without it. -/
theorem beBytes_succ_eq_append : beBytes (n + 1) x = beBytes n (x / 256) ++ [x % 256] := by
  induction n generalizing x with
  | zero => simp [beBytes]
  | succ n ih =>
      rw [beBytes, ih, beBytes, Nat.div_div_eq_div_mul, ← Nat.pow_succ']
      rfl

/-- The first bytes of a wide field are zeros, which a narrower field drops. -/
theorem drop_beBytes (h : m ≤ n) : (beBytes n x).drop (n - m) = beBytes m x := by
  induction n with
  | zero =>
      rw [Nat.le_zero.mp h]
      rfl
  | succ n ih =>
      rcases Nat.lt_or_ge m (n + 1) with hm | hm
      · rw [show n + 1 - m = (n - m) + 1 by omega, beBytes, List.drop_succ_cons]
        exact ih (by omega)
      · rw [show m = n + 1 by omega, Nat.sub_self, List.drop_zero]

theorem beFold_append (a b : List ℕ) : beFold acc (a ++ b) = beFold (beFold acc a) b := by
  simp [beFold, List.foldl_append]

/-- Reading more bytes never lowers the accumulator. -/
theorem le_beFold (bytes : List ℕ) : acc ≤ beFold acc bytes := by
  induction bytes generalizing acc with
  | nil => exact le_refl _
  | cons b bytes ih =>
      calc acc ≤ acc * 256 + b := by omega
        _ ≤ beFold (acc * 256 + b) bytes := ih
        _ = beFold acc (b :: bytes) := rfl

/-- **Reading back what was written.** -/
theorem beFold_beBytes : beFold acc (beBytes n x) = acc * 256 ^ n + x % 256 ^ n := by
  induction n generalizing x with
  | zero => simp [beBytes, beFold, Nat.mod_one]
  | succ n ih =>
      rw [beBytes_succ_eq_append, beFold_append, ih]
      have hsplit : x % 256 ^ (n + 1) = x / 256 % 256 ^ n * 256 + x % 256 := by
        rw [Nat.pow_succ', Nat.mod_mul, Nat.mul_comm]
        omega
      simp only [beFold, List.foldl_cons, List.foldl_nil]
      rw [hsplit, Nat.pow_succ]
      ring

/-- Split a number below `p * q` into its quotient and remainder by `p`: it is below another iff
its quotient is, or the quotients agree and its remainder is. -/
theorem lt_iff_div_mod {p : ℕ} (hp : 0 < p) :
    x < y ↔ x / p < y / p ∨ (x / p = y / p ∧ x % p < y % p) := by
  have hx := Nat.div_add_mod x p
  have hy := Nat.div_add_mod y p
  have hxr := Nat.mod_lt x hp
  have hyr := Nat.mod_lt y hp
  constructor
  · intro hxy
    rcases Nat.lt_or_ge (x / p) (y / p) with hq | hq
    · exact Or.inl hq
    · have heq : x / p = y / p := le_antisymm (Nat.div_le_div_right hxy.le) hq
      refine Or.inr ⟨heq, ?_⟩
      rw [heq] at hx
      omega
  · rintro (hq | ⟨hq, hr⟩)
    · exact Nat.lt_of_div_lt_div hq
    · rw [hq] at hx
      omega

/-- **On one width, the lexicographic order of the bytes is the order of the numbers.** -/
theorem beBytes_lt_beBytes_iff (hx : x < 256 ^ n) (hy : y < 256 ^ n) :
    beBytes n x < beBytes n y ↔ x < y := by
  induction n generalizing x y with
  | zero =>
      simp only [Nat.pow_zero, Nat.lt_one_iff] at hx hy
      subst hx hy
      simp [beBytes]
  | succ n ih =>
      have hp : 0 < 256 ^ n := Nat.pow_pos (by decide)
      have hqx : x / 256 ^ n < 256 := Nat.div_lt_of_lt_mul (by rwa [← Nat.pow_succ])
      have hqy : y / 256 ^ n < 256 := Nat.div_lt_of_lt_mul (by rwa [← Nat.pow_succ])
      rw [beBytes, beBytes, Nat.mod_eq_of_lt hqx, Nat.mod_eq_of_lt hqy, List.cons_lt_cons_iff,
        ← beBytes_mod (x := x), ← beBytes_mod (x := y), ih (Nat.mod_lt x hp) (Nat.mod_lt y hp),
        lt_iff_div_mod hp (x := x) (y := y)]

/-- A byte string as `UInt8`s compares as the string of their values. -/
theorem map_ofNat_lt_map_ofNat_iff :
    ∀ {a b : List ℕ}, (∀ v ∈ a, v < 256) → (∀ v ∈ b, v < 256) →
      (a.map UInt8.ofNat < b.map UInt8.ofNat ↔ a < b)
  | [], [], _, _ => by simp
  | [], _ :: _, _, _ => by simp [List.nil_lt_cons]
  | _ :: _, [], _, _ => by simp
  | u :: a, v :: b, ha, hb => by
      have hu : (UInt8.ofNat u).toNat = u := by
        rw [UInt8.toNat_ofNat']
        exact Nat.mod_eq_of_lt (ha u (List.mem_cons_self ..))
      have hv : (UInt8.ofNat v).toNat = v := by
        rw [UInt8.toNat_ofNat']
        exact Nat.mod_eq_of_lt (hb v (List.mem_cons_self ..))
      have hinj : UInt8.ofNat u = UInt8.ofNat v ↔ u = v := by
        rw [← UInt8.toNat_inj, hu, hv]
      rw [List.map_cons, List.map_cons, List.cons_lt_cons_iff, List.cons_lt_cons_iff,
        UInt8.lt_iff_toNat_lt, hu, hv, hinj,
        map_ofNat_lt_map_ofNat_iff (fun w hw => ha w (List.mem_cons_of_mem u hw))
          (fun w hw => hb w (List.mem_cons_of_mem v hw))]

/-- A bit field shifted above a smaller one, joined with `|`, is a sum. -/
theorem shiftLeft_or_of_lt {a b k : ℕ} (hb : b < 2 ^ k) : a <<< k ||| b = a * 2 ^ k + b := by
  rw [← Nat.shiftLeft_add_eq_or_of_lt hb, Nat.shiftLeft_eq]

end BigEndian
