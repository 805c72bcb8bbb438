import Mathlib
import Mongo.Bson.ReadSpec

/-!
# `validateBSON` accepts exactly the BSON grammar

The state machine of `validateBSONIterative` against the grammar of `Mongo.Bson.Grammar`.

**The loop.**  One equation per state says what an iteration does (`step_beginObj`, …,
`step_endCodeWScope`).  From them, every iteration from a reachable state (`Validator.Sane`)
keeps it reachable and consumes a byte or closes a frame (`step_variant`), so the loop has a
result (`result`) with fuel `4 * maxLength + 1`, and every failure is a status
(`result_isStatus`): **no byte outside `[0, maxLength)` is read and the loop never runs out**,
for any input (`validateBSON_isStatus`).

**The grammar.**  For buffers shorter than `2^31` bytes,
* completeness (`passes_of_derives`): over a phrase of the grammar the validator goes from the
  state before it to the state after it, by induction on the derivation;
* soundness (`beginObj_sound`, `withinObj_sound`): a successful run from the start of a
  document, or of its elements, reads a derivable phrase, by strong induction on the variant.

The bound matters: `actualLength` is an `int`, and past `2^31` bytes the length check compares
sizes modulo `2^32`, so that a top-level size of `25` can stand for a walk of `2^32 + 25` bytes.
-/

namespace Mongo

/-- The state the validator continues in once `frames` are all that is open: `Done` at the top
level, else `EndCodeWScope` or `WithinObj` as `curr` is a `CodeWScope` or not. -/
def afterPop : List ValidationObjectFrame → ValidationState
  | [] => .done
  | parent :: _ => if parent.isCodeWithScope then .endCodeWScope else .withinObj

namespace Validator

/-- The loop variant: four per byte left, one per open frame. -/
def measure (v : Validator) : ℕ :=
  4 * (v.buffer.maxLength - v.buffer.position) + v.frames.length

/-- What holds of every state the loop reaches: the position is inside a buffer of 64-bit
size, and a frame is open wherever the source reads `curr`. -/
def Sane (v : Validator) : Prop :=
  v.buffer.position ≤ v.buffer.maxLength ∧ v.buffer.maxLength < 2 ^ 64 ∧
    (v.state = .withinObj ∨ v.state = .endObj ∨ v.state = .endCodeWScope → v.frames ≠ [])

end Validator

/-- The outcome of the validation loop from `v`, with all the fuel it needs. -/
def result (maxDepth : ℕ) (v : Validator) : Except ValidationError Unit :=
  Loop.result (fun v => v.state = .done) (step maxDepth) .outOfFuel Validator.measure v

variable {maxDepth : ℕ} {b : ℕ → UInt8} {p n : ℕ} {F : List ValidationObjectFrame}

/-! ## One iteration per state -/

theorem step_beginObj : step maxDepth ⟨⟨b, p, n⟩, F, .beginObj⟩ =
    if maxDepth < F.length then .error (.depthExceeded maxDepth)
    else if p + 4 ≤ n then
      .ok ⟨⟨b, p + 4, n⟩, ⟨startPositionOf p, false, readInt32 b p⟩ :: F, .withinObj⟩
    else .error (.invalid "bson size is larger than buffer size" []) := by
  simp only [step]
  split_ifs with hdepth hp
  · rfl
  · rw [Buffer.readInt_of_le hp]
    rfl
  · rw [Buffer.readInt_of_lt (by omega)]
    rfl

theorem step_withinObj (buf : Buffer) : step maxDepth ⟨buf, F, .withinObj⟩ =
    (validateElementInfo buf).bind fun r => .ok ⟨r.2.2, F, r.1⟩ :=
  rfl

theorem step_endObj (fr : ValidationObjectFrame) :
    step maxDepth ⟨⟨b, p, n⟩, fr :: F, .endObj⟩ =
      if toInt32 (p - fr.startPosition) ≠ fr.expectedSize then
        .error (.invalid "bson length doesn't match what we found" [])
      else .ok ⟨⟨b, p, n⟩, F, afterPop F⟩ := by
  simp only [step]
  split_ifs
  · rfl
  · cases F <;> rfl

theorem step_beginCodeWScope : step maxDepth ⟨⟨b, p, n⟩, F, .beginCodeWScope⟩ =
    if p + 4 ≤ n then
      ((⟨b, p + 4, n⟩ : Buffer).readUTF8String []).bind fun buf =>
        .ok ⟨buf, ⟨startPositionOf p, true, readInt32 b p⟩ :: F, .beginObj⟩
    else .error (.invalid "invalid bson CodeWScope size" []) := by
  simp only [step]
  split_ifs with hp
  · rw [Buffer.readInt_of_le hp]
    rfl
  · rw [Buffer.readInt_of_lt (by omega)]
    rfl

theorem step_endCodeWScope (fr : ValidationObjectFrame) :
    step maxDepth ⟨⟨b, p, n⟩, fr :: F, .endCodeWScope⟩ =
      if toInt32 (p - fr.startPosition) ≠ fr.expectedSize then
        .error (.invalid "bson length for CodeWScope doesn't match what we found" [])
      else if F = [] then .error (.invalid "unnested CodeWScope" [])
      else .ok ⟨⟨b, p, n⟩, F, .withinObj⟩ := by
  simp only [step]
  split_ifs with hlen hF
  · rfl
  · subst hF
    rfl
  · cases F with
    | nil => exact absurd rfl hF
    | cons _ _ => rfl

/-! ## The variant -/

/-- The position after an element that `validateElementInfo` accepts lies past its type byte and
inside the buffer. -/
theorem validateElementInfo_position {st : ValidationState} {elemName : List UInt8}
    {buf' : Buffer} (hn : n < 2 ^ 64)
    (h : validateElementInfo ⟨b, p, n⟩ = .ok (st, elemName, buf')) :
    buf'.bytes = b ∧ buf'.maxLength = n ∧ p < buf'.position ∧ buf'.position ≤ n := by
  rcases validateElementInfo_sound hn h with ⟨-, hpn, -, rfl⟩ | ⟨-, x, hx, hxn, hval⟩
  · exact ⟨rfl, rfl, by simp, hpn⟩
  · have hpx := hx.1
    rcases validateValue_sound elemName (by omega) hn hval with
      ⟨-, t, r, -, hleaf, hrn, rfl⟩ | ⟨-, -, rfl⟩ | ⟨-, -, rfl⟩
    · have := hleaf.le
      exact ⟨rfl, rfl, by simp only; omega, hrn⟩
    · exact ⟨rfl, rfl, by simp only; omega, by simp only; omega⟩
    · exact ⟨rfl, rfl, by simp only; omega, by simp only; omega⟩

/-- **Every iteration from a reachable state reaches a reachable state, and consumes a byte or
closes a frame.** -/
theorem step_variant :
    Loop.Variant (fun v : Validator => v.state = .done) (step maxDepth) Validator.Sane
      Validator.measure := by
  rintro ⟨⟨b, p, n⟩, F, st⟩ v' ⟨hp, hn, hF⟩ hd h
  simp only [Validator.measure] at hp hn hF ⊢
  cases st with
  | beginObj =>
      rw [step_beginObj] at h
      split_ifs at h with hdepth hp4
      cases h
      exact ⟨⟨hp4, hn, by simp⟩, by simp only [List.length_cons]; omega⟩
  | withinObj =>
      rw [step_withinObj] at h
      obtain ⟨⟨st', name, buf'⟩, hvei, h⟩ := Except.bind_eq_ok.mp h
      cases h
      obtain ⟨hb, hmax, hlt, hle⟩ := validateElementInfo_position hn hvei
      obtain ⟨b', p', n'⟩ := buf'
      simp only at hb hmax hlt hle
      subst hb hmax
      dsimp only
      exact ⟨⟨hle, hn, fun _ => hF (Or.inl rfl)⟩, by omega⟩
  | endObj =>
      cases F with
      | nil => exact absurd rfl (hF (Or.inr (Or.inl rfl)))
      | cons fr F =>
          rw [step_endObj] at h
          split_ifs at h
          cases h
          refine ⟨⟨hp, hn, fun hst => ?_⟩, by simp only [List.length_cons]; omega⟩
          cases F with
          | nil => simp [afterPop] at hst
          | cons _ _ => simp
  | beginCodeWScope =>
      rw [step_beginCodeWScope] at h
      split_ifs at h with hp4
      · obtain ⟨buf', hstr, h⟩ := Except.bind_eq_ok.mp h
        cases h
        obtain ⟨s, hs, hsn, rfl⟩ := (Buffer.readUTF8String_eq_ok []).mp hstr
        have := hs.lt
        exact ⟨⟨hsn, hn, by simp⟩, by simp only [List.length_cons]; omega⟩
  | endCodeWScope =>
      cases F with
      | nil => exact absurd rfl (hF (Or.inr (Or.inr rfl)))
      | cons fr F =>
          rw [step_endCodeWScope] at h
          split_ifs at h with hlen hnil
          cases h
          exact ⟨⟨hp, hn, fun _ => hnil⟩, by simp only [List.length_cons]; omega⟩
  | done => exact absurd rfl hd

/-- **An iteration fails only with a status**: from a reachable state it reads nothing outside
the buffer and always finds `curr`. -/
theorem step_isStatus {v : Validator} {e : ValidationError} (hv : v.Sane)
    (h : step maxDepth v = .error e) : e.IsStatus := by
  obtain ⟨⟨b, p, n⟩, F, st⟩ := v
  obtain ⟨hp, hn, hF⟩ := hv
  simp only at hp hn hF
  cases st with
  | beginObj =>
      rw [step_beginObj] at h
      split_ifs at h <;> cases h <;> trivial
  | withinObj =>
      rw [step_withinObj] at h
      rcases hvei : validateElementInfo ⟨b, p, n⟩ with e' | r
      · rw [hvei] at h
        cases h
        exact validateElementInfo_error hn hvei
      · rw [hvei] at h
        cases h
  | endObj =>
      cases F with
      | nil => exact absurd rfl (hF (Or.inr (Or.inl rfl)))
      | cons fr F =>
          rw [step_endObj] at h
          split_ifs at h
          cases h
          trivial
  | beginCodeWScope =>
      rw [step_beginCodeWScope] at h
      split_ifs at h
      · rcases hstr : (⟨b, p + 4, n⟩ : Buffer).readUTF8String [] with e' | buf'
        · rw [hstr] at h
          cases h
          obtain ⟨_, rfl⟩ := Buffer.readUTF8String_error [] _ hstr
          trivial
        · rw [hstr] at h
          cases h
      · cases h
        trivial
  | endCodeWScope =>
      cases F with
      | nil => exact absurd rfl (hF (Or.inr (Or.inr rfl)))
      | cons fr F =>
          rw [step_endCodeWScope] at h
          split_ifs at h <;> cases h <;> trivial
  | done => cases h

/-! ## The result of the loop -/

/-- One successful iteration from a reachable state does not change the result. -/
theorem result_of_step {v v' : Validator} (hv : v.Sane) (hd : v.state ≠ .done)
    (h : step maxDepth v = .ok v') : result maxDepth v = result maxDepth v' :=
  Loop.result_of_ok step_variant hv hd h

/-- A successful run from a state that is not done is a successful iteration, then a successful
run. -/
theorem result_eq_ok {v : Validator} (hv : v.Sane) (hd : v.state ≠ .done)
    (h : result maxDepth v = .ok ()) :
    ∃ v', step maxDepth v = .ok v' ∧ result maxDepth v' = .ok () := by
  rcases hstep : step maxDepth v with e | v'
  · have herr : result maxDepth v = .error e := Loop.result_of_error hd hstep
    rw [herr] at h
    cases h
  · exact ⟨v', rfl, (result_of_step hv hd hstep).symm.trans h⟩

/-- **The validation loop fails only with a status.** -/
theorem result_isStatus {v : Validator} {e : ValidationError} (hv : v.Sane)
    (h : result maxDepth v = .error e) : e.IsStatus := by
  obtain ⟨v', hv', -, hstep⟩ := Loop.result_error step_variant hv h
  exact step_isStatus hv' hstep

/-- `validateBSONIterative` runs the loop to its result: `4 * maxLength + 1` iterations are
enough. -/
theorem validateBSONIterative_eq_result (hn : n < 2 ^ 64) :
    validateBSONIterative maxDepth ⟨b, 0, n⟩ = result maxDepth ⟨⟨b, 0, n⟩, [], .beginObj⟩ :=
  Loop.run_eq_result step_variant ⟨Nat.zero_le _, hn, by simp⟩
    (by simp [Validator.measure])

/-- **`validateBSON` reads no byte outside the buffer and always finishes**: it fails only with
a status, on every input. -/
theorem validateBSON_isStatus {e : ValidationError} (hn : n < 2 ^ 64)
    (h : validateBSON maxDepth b n = .error e) : e.IsStatus := by
  unfold validateBSON at h
  split_ifs at h
  · cases h
    trivial
  · rw [validateBSONIterative_eq_result hn] at h
    exact result_isStatus ⟨Nat.zero_le _, hn, by simp⟩ h

/-! ## Runs -/

/-- `v'` is reached from `v` by successful iterations of the loop. -/
def Reaches (maxDepth : ℕ) : Validator → Validator → Prop :=
  Relation.ReflTransGen fun v v' => step maxDepth v = .ok v'

instance (maxDepth : ℕ) : Trans (Reaches maxDepth) (Reaches maxDepth) (Reaches maxDepth) :=
  ⟨Relation.ReflTransGen.trans⟩

/-- A successful iteration keeps a state reachable; from `Done` it stays put. -/
theorem Validator.Sane.step {v v' : Validator} (hv : v.Sane) (h : step maxDepth v = .ok v') :
    v'.Sane := by
  by_cases hd : v.state = .done
  · obtain ⟨buf, F, st⟩ := v
    simp only at hd
    subst hd
    cases h
    exact hv
  · exact (step_variant v v' hv hd h).1

/-- **A run does not change the outcome** of the loop. -/
theorem result_eq_of_reaches {v v' : Validator} (h : Reaches maxDepth v v') (hv : v.Sane) :
    result maxDepth v = result maxDepth v' ∧ v'.Sane := by
  induction h with
  | refl => exact ⟨rfl, hv⟩
  | @tail w v' _ hstep ih =>
      obtain ⟨hres, hw⟩ := ih
      refine ⟨hres.trans ?_, hw.step hstep⟩
      by_cases hd : w.state = .done
      · obtain ⟨buf, F, st⟩ := w
        simp only at hd
        subst hd
        cases hstep
        rfl
      · exact result_of_step hw hd hstep

/-- Reachability of a state at a position inside the buffer with frames open. -/
theorem sane_of_ne_nil {st : ValidationState} (hp : p ≤ n) (hn : n < 2 ^ 64) (hF : F ≠ []) :
    Validator.Sane ⟨⟨b, p, n⟩, F, st⟩ :=
  ⟨hp, hn, fun _ => hF⟩

theorem reaches_beginObj (hF : F.length ≤ maxDepth) (hp : p + 4 ≤ n) :
    Reaches maxDepth ⟨⟨b, p, n⟩, F, .beginObj⟩
      ⟨⟨b, p + 4, n⟩, ⟨startPositionOf p, false, readInt32 b p⟩ :: F, .withinObj⟩ :=
  .single (by rw [step_beginObj, if_neg (by omega), if_pos hp])

theorem reaches_withinObj {st : ValidationState} {elemName : List UInt8} {buf' : Buffer}
    (h : validateElementInfo ⟨b, p, n⟩ = .ok (st, elemName, buf')) :
    Reaches maxDepth ⟨⟨b, p, n⟩, F, .withinObj⟩ ⟨buf', F, st⟩ :=
  .single (by rw [step_withinObj, h]; rfl)

theorem reaches_endObj (fr : ValidationObjectFrame)
    (h : toInt32 (p - fr.startPosition) = fr.expectedSize) :
    Reaches maxDepth ⟨⟨b, p, n⟩, fr :: F, .endObj⟩ ⟨⟨b, p, n⟩, F, afterPop F⟩ :=
  .single (by rw [step_endObj, if_neg (not_not.mpr h)])

theorem reaches_beginCodeWScope {s : ℕ} (hp : p + 4 ≤ n) (hs : Utf8String b (p + 4) s)
    (hsn : s ≤ n) :
    Reaches maxDepth ⟨⟨b, p, n⟩, F, .beginCodeWScope⟩
      ⟨⟨b, s, n⟩, ⟨startPositionOf p, true, readInt32 b p⟩ :: F, .beginObj⟩ := by
  have hstr := (Buffer.readUTF8String_eq_ok (b := b) (p := p + 4) (n := n) []).mpr ⟨s, hs, hsn, rfl⟩
  exact .single (by rw [step_beginCodeWScope, if_pos hp, hstr]; rfl)

theorem reaches_endCodeWScope (fr : ValidationObjectFrame)
    (h : toInt32 (p - fr.startPosition) = fr.expectedSize) (hF : F ≠ []) :
    Reaches maxDepth ⟨⟨b, p, n⟩, fr :: F, .endCodeWScope⟩ ⟨⟨b, p, n⟩, F, .withinObj⟩ :=
  .single (by rw [step_endCodeWScope, if_neg (not_not.mpr h), if_neg hF])

theorem result_beginObj_ok (hp : p ≤ n) (hn : n < 2 ^ 64)
    (h : result maxDepth ⟨⟨b, p, n⟩, F, .beginObj⟩ = .ok ()) :
    F.length ≤ maxDepth ∧ p + 4 ≤ n := by
  obtain ⟨v', hstep, -⟩ := result_eq_ok ⟨hp, hn, by simp⟩ (by simp) h
  rw [step_beginObj] at hstep
  split_ifs at hstep with hdepth hp4
  exact ⟨not_lt.mp hdepth, hp4⟩

theorem result_withinObj_ok (hF : F ≠ []) (hp : p ≤ n) (hn : n < 2 ^ 64)
    (h : result maxDepth ⟨⟨b, p, n⟩, F, .withinObj⟩ = .ok ()) :
    ∃ st elemName buf', validateElementInfo ⟨b, p, n⟩ = .ok (st, elemName, buf') ∧
      result maxDepth ⟨buf', F, st⟩ = .ok () := by
  obtain ⟨v', hstep, hres⟩ := result_eq_ok (sane_of_ne_nil hp hn hF) (by simp) h
  rw [step_withinObj] at hstep
  obtain ⟨⟨st, elemName, buf'⟩, hvei, hstep⟩ := Except.bind_eq_ok.mp hstep
  cases hstep
  exact ⟨st, elemName, buf', hvei, hres⟩

theorem result_endObj_ok (fr : ValidationObjectFrame) (hp : p ≤ n) (hn : n < 2 ^ 64)
    (h : result maxDepth ⟨⟨b, p, n⟩, fr :: F, .endObj⟩ = .ok ()) :
    toInt32 (p - fr.startPosition) = fr.expectedSize ∧
      result maxDepth ⟨⟨b, p, n⟩, F, afterPop F⟩ = .ok () := by
  obtain ⟨v', hstep, hres⟩ := result_eq_ok (sane_of_ne_nil hp hn (by simp)) (by simp) h
  rw [step_endObj] at hstep
  split_ifs at hstep with hlen
  cases hstep
  exact ⟨not_not.mp hlen, hres⟩

theorem result_beginCodeWScope_ok (hp : p ≤ n) (hn : n < 2 ^ 64)
    (h : result maxDepth ⟨⟨b, p, n⟩, F, .beginCodeWScope⟩ = .ok ()) :
    p + 4 ≤ n ∧ ∃ s, Utf8String b (p + 4) s ∧ s ≤ n ∧
      result maxDepth ⟨⟨b, s, n⟩, ⟨startPositionOf p, true, readInt32 b p⟩ :: F, .beginObj⟩ =
        .ok () := by
  obtain ⟨v', hstep, hres⟩ := result_eq_ok ⟨hp, hn, by simp⟩ (by simp) h
  rw [step_beginCodeWScope] at hstep
  split_ifs at hstep with hp4
  obtain ⟨buf', hstr, hstep⟩ := Except.bind_eq_ok.mp hstep
  cases hstep
  obtain ⟨s, hs, hsn, rfl⟩ := (Buffer.readUTF8String_eq_ok []).mp hstr
  exact ⟨hp4, s, hs, hsn, hres⟩

theorem result_endCodeWScope_ok (fr : ValidationObjectFrame) (hp : p ≤ n) (hn : n < 2 ^ 64)
    (h : result maxDepth ⟨⟨b, p, n⟩, fr :: F, .endCodeWScope⟩ = .ok ()) :
    toInt32 (p - fr.startPosition) = fr.expectedSize ∧ F ≠ [] ∧
      result maxDepth ⟨⟨b, p, n⟩, F, .withinObj⟩ = .ok () := by
  obtain ⟨v', hstep, hres⟩ := result_eq_ok (sane_of_ne_nil hp hn (by simp)) (by simp) h
  rw [step_endCodeWScope] at hstep
  split_ifs at hstep with hlen hF
  cases hstep
  exact ⟨not_not.mp hlen, hF, hres⟩

/-! ## Completeness -/

theorem startPositionOf_of_lt (hp : p < 2 ^ 31) : startPositionOf p = p :=
  Nat.mod_eq_of_lt hp

/-- Below `2^31` the length check computes the true distance from the frame's start. -/
theorem toInt32_sub_startPositionOf {q : ℕ} (hpq : p ≤ q) (hq : q < 2 ^ 31) :
    toInt32 (q - startPositionOf p) = ((q - p : ℕ) : ℤ) := by
  rw [startPositionOf_of_lt (by omega), toInt32_of_lt (by omega)]

/-- What the validator does over a phrase: it runs from the state before the phrase to the state
after it.  A document is read from `BeginObj` with the frames outside it open, and leaves them to
their own state; elements are read from `WithinObj` with their object's frame on top. -/
def Passes (maxDepth : ℕ) (b : ℕ → UInt8) (n : ℕ) : Phrase → ℕ → ℕ → ℕ → Prop
  | .document, f, p, q => ∀ F : List ValidationObjectFrame, F.length = f → q ≤ n →
      Reaches maxDepth ⟨⟨b, p, n⟩, F, .beginObj⟩ ⟨⟨b, q, n⟩, F, afterPop F⟩
  | .elements, g, p, e | .element, g, p, e =>
      ∀ (fr : ValidationObjectFrame) (F : List ValidationObjectFrame), F.length + 1 = g →
        fr.isCodeWithScope = false → e < n →
        Reaches maxDepth ⟨⟨b, p, n⟩, fr :: F, .withinObj⟩ ⟨⟨b, e, n⟩, fr :: F, .withinObj⟩

/-- **Completeness**: the validator passes over every phrase of the grammar, in a buffer shorter
than `2^31` bytes. -/
theorem passes_of_derives (hn : n < 2 ^ 31) {ph : Phrase} {f p q : ℕ}
    (h : Derives maxDepth b ph f p q) : Passes maxDepth b n ph f p q := by
  have hn64 : n < 2 ^ 64 := by omega
  induction h with
  | @document f p q hf hpq hsize hlast hel ih =>
      intro F hF hq
      obtain ⟨q, rfl⟩ : ∃ q', q = q' + 1 := ⟨q - 1, by omega⟩
      simp only [Nat.add_sub_cancel] at hlast hel ih
      have hlen : toInt32 (q + 1 - startPositionOf p) = readInt32 b p := by
        rw [toInt32_sub_startPositionOf (by omega) (by omega), hsize]
      let fr : ValidationObjectFrame := ⟨startPositionOf p, false, readInt32 b p⟩
      calc Reaches maxDepth ⟨⟨b, p, n⟩, F, .beginObj⟩ ⟨⟨b, p + 4, n⟩, fr :: F, .withinObj⟩ :=
            reaches_beginObj (by omega) (by omega)
        Reaches maxDepth _ ⟨⟨b, q, n⟩, fr :: F, .withinObj⟩ := ih fr F (by omega) rfl (by omega)
        Reaches maxDepth _ ⟨⟨b, q + 1, n⟩, fr :: F, .endObj⟩ :=
            reaches_withinObj (validateElementInfo_of_eoo (by omega) hlast)
        Reaches maxDepth _ ⟨⟨b, q + 1, n⟩, F, afterPop F⟩ := reaches_endObj fr hlen
  | nil => intro _ _ _ _ _; exact .refl
  | cons h₁ h₂ ih₁ ih₂ =>
      intro fr F hg hfr he
      have := h₂.le.1
      exact (ih₁ fr F hg hfr (by omega)).trans (ih₂ fr F hg hfr he)
  | @leaf g i x r type hty hx hval =>
      intro fr F hg hfr hr
      have h0 : b i ≠ 0 := BSONType.ne_zero_of_ofByte hty (by rintro rfl; exact hval)
      have hxr := hval.le
      obtain ⟨elemName, hvei⟩ := validateElementInfo_of_value h0 hx (by omega) hn64
        fun elemName => by rw [hty, validateValue_of_leafValue elemName hval hr hn64]
      exact reaches_withinObj hvei
  | @embedded g i x r type hty hnested hx hdoc ih =>
      intro fr F hg hfr hr
      have h0 : b i ≠ 0 := BSONType.ne_zero_of_ofByte hty (by rcases hnested with rfl | rfl <;> simp)
      have hxr := hdoc.le
      obtain ⟨elemName, hvei⟩ := validateElementInfo_of_value h0 hx (by omega) hn64
        fun elemName => by rw [hty, validateValue_nested elemName _ hnested]
      have hafter : afterPop (fr :: F) = .withinObj := by simp [afterPop, hfr]
      calc Reaches maxDepth ⟨⟨b, i, n⟩, fr :: F, .withinObj⟩ ⟨⟨b, x + 1, n⟩, fr :: F, .beginObj⟩ :=
            reaches_withinObj hvei
        Reaches maxDepth _ ⟨⟨b, r, n⟩, fr :: F, .withinObj⟩ :=
            hafter ▸ ih (fr :: F) (by simp [hg]) hr.le
  | @codeWScope g i x s r hty hx hsize hs hdoc ih =>
      intro fr F hg hfr hr
      have h0 : b i ≠ 0 := BSONType.ne_zero_of_ofByte hty (by simp)
      have hsr := hdoc.le
      have hxs := hs.lt
      have hlen : toInt32 (r - startPositionOf (x + 1)) = readInt32 b (x + 1) := by
        rw [toInt32_sub_startPositionOf (by omega) (by omega), hsize]
      obtain ⟨elemName, hvei⟩ := validateElementInfo_of_value h0 hx (by omega) hn64
        fun elemName => by rw [hty]; rfl
      let cws : ValidationObjectFrame := ⟨startPositionOf (x + 1), true, readInt32 b (x + 1)⟩
      calc Reaches maxDepth ⟨⟨b, i, n⟩, fr :: F, .withinObj⟩
            ⟨⟨b, x + 1, n⟩, fr :: F, .beginCodeWScope⟩ := reaches_withinObj hvei
        Reaches maxDepth _ ⟨⟨b, s, n⟩, cws :: fr :: F, .beginObj⟩ :=
            reaches_beginCodeWScope (by omega) hs (by omega)
        Reaches maxDepth _ ⟨⟨b, r, n⟩, cws :: fr :: F, .endCodeWScope⟩ :=
            ih (cws :: fr :: F) (by simp [hg]) hr.le
        Reaches maxDepth _ ⟨⟨b, r, n⟩, fr :: F, .withinObj⟩ := reaches_endCodeWScope cws hlen (by simp)

/-! ## Soundness -/

/-- Soundness from `BeginObj`: a successful run reads a document, then goes on successfully from
the state after it. -/
def BeginObjSound (maxDepth : ℕ) (b : ℕ → UInt8) (n p : ℕ) (F : List ValidationObjectFrame) :
    Prop :=
  result maxDepth ⟨⟨b, p, n⟩, F, .beginObj⟩ = .ok () →
    ∃ q, Derives maxDepth b .document F.length p q ∧ q ≤ n ∧
      result maxDepth ⟨⟨b, q, n⟩, F, afterPop F⟩ = .ok ()

/-- Soundness from `WithinObj` inside an object: a successful run reads elements up to an `EOO`
byte, then goes on successfully from `EndObj` after it. -/
def WithinObjSound (maxDepth : ℕ) (b : ℕ → UInt8) (n p : ℕ) (fr : ValidationObjectFrame)
    (F : List ValidationObjectFrame) : Prop :=
  fr.isCodeWithScope = false → result maxDepth ⟨⟨b, p, n⟩, fr :: F, .withinObj⟩ = .ok () →
    ∃ e, Derives maxDepth b .elements (F.length + 1) p e ∧ e < n ∧ b e = 0 ∧
      result maxDepth ⟨⟨b, e + 1, n⟩, fr :: F, .endObj⟩ = .ok ()

/-- A document is sound from `BeginObj` if its elements are sound from `WithinObj`. -/
theorem beginObj_sound (hn : n < 2 ^ 31) (hp : p ≤ n)
    (ih : ∀ p' fr F', 4 * (n - p') + (F'.length + 1) < 4 * (n - p) + F.length → p' ≤ n →
      WithinObjSound maxDepth b n p' fr F') :
    BeginObjSound maxDepth b n p F := by
  intro hres
  have hn64 : n < 2 ^ 64 := by omega
  obtain ⟨hF, hp4⟩ := result_beginObj_ok hp hn64 hres
  rw [(result_eq_of_reaches (reaches_beginObj hF hp4) ⟨hp, hn64, by simp⟩).1] at hres
  obtain ⟨e, hel, hen, hbe, hend⟩ := ih (p + 4) _ F (by omega) hp4 rfl hres
  obtain ⟨hlen, hrest⟩ := result_endObj_ok _ (by omega) hn64 hend
  have hpe := hel.le.1
  rw [toInt32_sub_startPositionOf (by omega) (by omega)] at hlen
  refine ⟨e + 1, .document hF (by omega) hlen.symm (by simpa using hbe) (by simpa using hel),
    by omega, hrest⟩

/-- Elements are sound from `WithinObj` if documents and elements further on are. -/
theorem withinObj_sound (hn : n < 2 ^ 31) (hp : p ≤ n) {fr : ValidationObjectFrame}
    (ihb : ∀ p' F', 4 * (n - p') + F'.length < 4 * (n - p) + (F.length + 1) → p' ≤ n →
      BeginObjSound maxDepth b n p' F')
    (ihw : ∀ p' fr' F', 4 * (n - p') + (F'.length + 1) < 4 * (n - p) + (F.length + 1) →
      p' ≤ n → WithinObjSound maxDepth b n p' fr' F') :
    WithinObjSound maxDepth b n p fr F := by
  intro hfr hres
  have hn64 : n < 2 ^ 64 := by omega
  obtain ⟨st, name, buf', hvei, hres⟩ := result_withinObj_ok (by simp) hp hn64 hres
  rcases validateElementInfo_sound hn64 hvei with ⟨hb0, hpn, rfl, rfl⟩ | ⟨-, x, hx, hxn, hval⟩
  · exact ⟨p, .nil, hpn, hb0, hres⟩
  have hpx := hx.1
  rcases validateValue_sound name (by omega) hn64 hval with
    ⟨rfl, t, r, hty, hleaf, hrn, rfl⟩ | ⟨rfl, hty, rfl⟩ | ⟨rfl, hty, rfl⟩
  · have := hleaf.le
    obtain ⟨e, hel, hen, hbe, hend⟩ := ihw r fr F (by omega) hrn hfr hres
    exact ⟨e, .cons (.leaf hty hx hleaf) hel, hen, hbe, hend⟩
  · obtain ⟨t, hty, hnested⟩ : ∃ t, BSONType.ofByte (b p) = some t ∧
        (t = .object ∨ t = .array) := by
      rcases hty with h | h
      exacts [⟨_, h, Or.inl rfl⟩, ⟨_, h, Or.inr rfl⟩]
    obtain ⟨q, hdoc, hqn, hres⟩ := ihb (x + 1) (fr :: F) (by simp only [List.length_cons]; omega)
      (by omega) hres
    simp only [afterPop, hfr, Bool.false_eq_true, if_false] at hres
    have := hdoc.le
    obtain ⟨e, hel, hen, hbe, hend⟩ := ihw q fr F (by omega) hqn hfr hres
    exact ⟨e, .cons (.embedded hty hnested hx hdoc) hel, hen, hbe, hend⟩
  · obtain ⟨-, s, hs, hsn, hres⟩ := result_beginCodeWScope_ok (by omega) hn64 hres
    have := hs.lt
    obtain ⟨q, hdoc, hqn, hres⟩ := ihb s _ (by simp only [List.length_cons]; omega) hsn hres
    simp only [afterPop, if_true] at hres
    obtain ⟨hlen, -, hres⟩ := result_endCodeWScope_ok _ hqn hn64 hres
    have := hdoc.le
    rw [toInt32_sub_startPositionOf (by omega) (by omega)] at hlen
    obtain ⟨e, hel, hen, hbe, hend⟩ := ihw q fr F (by omega) hqn hfr hres
    exact ⟨e, .cons (.codeWScope hty hx hlen.symm hs hdoc) hel, hen, hbe, hend⟩

/-- **Soundness**, by strong induction on the variant: in a buffer shorter than `2^31` bytes,
every successful run from the start of a document, or of the elements of an object, reads a
phrase of the grammar. -/
theorem sound_of_measure (hn : n < 2 ^ 31) (m : ℕ) :
    (∀ p F, 4 * (n - p) + F.length = m → p ≤ n → BeginObjSound maxDepth b n p F) ∧
      (∀ p fr F, 4 * (n - p) + (F.length + 1) = m → p ≤ n →
        WithinObjSound maxDepth b n p fr F) := by
  induction m using Nat.strongRecOn with
  | _ m ih =>
      refine ⟨fun p F hm hp => ?_, fun p fr F hm hp => ?_⟩
      · exact beginObj_sound hn hp fun p' fr F' hlt hp' =>
          (ih _ (hm ▸ hlt)).2 p' fr F' rfl hp'
      · exact withinObj_sound hn hp
          (fun p' F' hlt hp' => (ih _ (hm ▸ hlt)).1 p' F' rfl hp')
          (fun p' fr' F' hlt hp' => (ih _ (hm ▸ hlt)).2 p' fr' F' rfl hp')

/-! ## The validator and the grammar -/

theorem result_done (buf : Buffer) : result maxDepth ⟨buf, F, .done⟩ = .ok () :=
  Loop.result_of_done rfl

/-- What `validateBSON` accepts begins with a document. -/
theorem derives_of_validateBSON (hn : n < 2 ^ 31) (h : validateBSON maxDepth b n = .ok ()) :
    5 ≤ n ∧ ∃ q ≤ n, Derives maxDepth b .document 0 0 q := by
  unfold validateBSON at h
  split_ifs at h with h5
  rw [validateBSONIterative_eq_result (by omega)] at h
  obtain ⟨q, hdoc, hq, -⟩ := (sound_of_measure hn _).1 0 [] rfl (Nat.zero_le _) h
  exact ⟨not_lt.mp h5, q, hq, hdoc⟩

/-- `validateBSON` accepts every buffer that begins with a document. -/
theorem validateBSON_of_derives (hn : n < 2 ^ 31) (h5 : 5 ≤ n) {q : ℕ} (hq : q ≤ n)
    (hdoc : Derives maxDepth b .document 0 0 q) : validateBSON maxDepth b n = .ok () := by
  have hn64 : n < 2 ^ 64 := by omega
  have hrun := passes_of_derives hn hdoc [] rfl hq
  rw [validateBSON, if_neg (by omega), validateBSONIterative_eq_result hn64,
    (result_eq_of_reaches hrun ⟨Nat.zero_le _, hn64, by simp⟩).1]
  exact result_done _

/-- **`validateBSON` accepts exactly the documents of the grammar** in a buffer shorter than
`2^31` bytes: it returns OK iff the buffer has at least five bytes and begins with a document.
On every length below `2^64`, this one included, it reads nothing outside the buffer and fails
only with a status. -/
theorem validateBSON_eq_ok_iff (hn : n < 2 ^ 31) :
    (validateBSON maxDepth b n = .ok () ↔
        5 ≤ n ∧ ∃ q ≤ n, Derives maxDepth b .document 0 0 q) ∧
      ∀ m < 2 ^ 64, ∀ e, validateBSON maxDepth b m = .error e → e.IsStatus :=
  ⟨⟨derives_of_validateBSON hn, fun ⟨h5, _, hq, hdoc⟩ => validateBSON_of_derives hn h5 hq hdoc⟩,
    fun _ hm _ h => validateBSON_isStatus hm h⟩

/-- The five-byte empty document `{}`. -/
def emptyDocument (i : ℕ) : UInt8 :=
  if i = 0 then 5 else 0

theorem validateBSON_eq_ok_iff_emptyDocument :
    (5 : ℕ) < 2 ^ 31 ∧
      ((validateBSON kDefaultMaxAllowableDepth emptyDocument 5 = .ok () ↔
          5 ≤ 5 ∧ ∃ q ≤ 5, Derives kDefaultMaxAllowableDepth emptyDocument .document 0 0 q) ∧
        ∀ m < 2 ^ 64, ∀ e,
          validateBSON kDefaultMaxAllowableDepth emptyDocument m = .error e → e.IsStatus) :=
  ⟨by decide, validateBSON_eq_ok_iff (by decide)⟩

/-! ## Past `2^31` bytes -/

/-- A buffer of `2^32 + 25` bytes whose top-level size says `25`: three string elements of
`2^31 - 1`, `2^31 - 1` and `4` bytes, then `EOO`.  The walk ends `2^32 + 25` bytes after the
start, which the `int` length check takes for `25`. -/
def wrappedDocument (i : ℕ) : UInt8 :=
  if i = 0 then 25
  else if i = 4 ∨ i = 2147483657 ∨ i = 4294967310 then 2
  else if (6 ≤ i ∧ i ≤ 8) ∨ (2147483659 ≤ i ∧ i ≤ 2147483661) then 0xFF
  else if i = 9 ∨ i = 2147483662 then 0x7F
  else if i = 4294967312 then 4
  else 0

/-- The wrapped document is no document: its first element, a string of `2^31 - 1` bytes,
overruns the `25` bytes the size announces. -/
theorem not_derives_wrappedDocument (maxDepth q : ℕ) :
    ¬ Derives maxDepth wrappedDocument .document 0 0 q := by
  intro h
  cases h with
  | document _ _ hsize _ hel =>
  have hq : q = 25 := by
    have : readInt32 wrappedDocument 0 = 25 := by decide
    omega
  subst hq
  cases hel with
  | cons hfirst hrest =>
  have hle := hrest.le.1
  have hty : BSONType.ofByte (wrappedDocument 4) = some .string := by decide
  cases hfirst with
  | leaf hty' hx hval =>
      rw [hty] at hty'
      cases hty'
      have hx5 : CString wrappedDocument 5 5 := ⟨le_refl _, by decide, fun i h₁ h₂ => by omega⟩
      obtain rfl := hx.unique hx5
      obtain ⟨-, hr, -⟩ := hval
      have : readInt32 wrappedDocument (5 + 1) = 2147483647 := by decide
      omega
  | embedded hty' hnested =>
      rw [hty] at hty'
      cases hty'
      rcases hnested with h | h <;> cases h
  | codeWScope hty' =>
      rw [hty] at hty'
      cases hty'

/-- The validator accepts the wrapped document. -/
theorem validateBSON_wrappedDocument_ok :
    validateBSON kDefaultMaxAllowableDepth wrappedDocument 4294967321 = .ok () := by
  decide

/-- **The validator accepts a buffer that begins with no document**: exact acceptance fails for
buffers of `2^32` bytes and more. -/
theorem validateBSON_wrappedDocument :
    validateBSON kDefaultMaxAllowableDepth wrappedDocument 4294967321 = .ok () ∧
      ¬ ∃ q ≤ 4294967321,
        Derives kDefaultMaxAllowableDepth wrappedDocument .document 0 0 q :=
  ⟨validateBSON_wrappedDocument_ok, fun ⟨q, _, h⟩ => not_derives_wrappedDocument _ q h⟩

end Mongo
