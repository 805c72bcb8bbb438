import Mongo.Ftdc.Decompressor
import Mongo.Lib.Except

/-!
# What the FTDC decompressor guarantees, and where it does not

* `constructDocumentFromMetrics_extractMetricsFromDocument` — a reference document nested at
  most `kMaxRecursion` deep is rebuilt from its own metrics.  `extractElements_of_depth_le` and
  `constructElements_of_depth_le` are the two halves, by induction on the document.
* `decodeSamples_inBounds` — while `metricsCount * sampleCount` fits in 32 bits, every access
  to `deltas` is in range, so the only undefined behaviour left is `getValue()` of a failed
  `constructDocumentFromMetrics`.  Each of the four loops keeps the length of `deltas`.
* `decodeSamples_length` — a result with a value holds the reference document and one document
  per sample.
* `uncompress_undefinedBehavior` — what happens when the guard is passed by a wrapped product,
  when the run of zeroes after a zero delta is cut off, and when the reference document is
  nested too deep.
-/

namespace Mongo
namespace Ftdc

/-! ## The reference document -/

mutual

/-- The metrics of a value, in the order `extractMetricsFromDocument` appends them. -/
def Value.metrics : Value → List UInt64
  | .number n => [n]
  | .bool b => [if b then 1 else 0]
  | .date millis => [millis]
  | .timestamp secs inc => [secs.toUInt64, inc.toUInt64]
  | .object elements => elements.metrics
  | .array elements => elements.metrics
  | .other => []

/-- The metrics of the elements of a document. -/
def Elements.metrics : Elements → List UInt64
  | .nil => []
  | .cons _ value rest => value.metrics ++ rest.metrics

end

mutual

/-- How many objects and arrays nest in a value. -/
def Value.depth : Value → ℕ
  | .object elements => elements.depth + 1
  | .array elements => elements.depth + 1
  | _ => 0

/-- How many objects and arrays nest in the elements of a document. -/
def Elements.depth : Elements → ℕ
  | .nil => 0
  | .cons _ value rest => max value.depth rest.depth

end

mutual

/-- Within the recursion limit a value's metrics are appended in full. -/
theorem extractValue_of_depth_le :
    ∀ (recursion : ℕ) (value : Value) (metrics : List UInt64),
      recursion + value.depth ≤ kMaxRecursion →
        extractValue recursion value metrics = (none, metrics ++ value.metrics)
  | _, .number _, _, _ => rfl
  | _, .bool _, _, _ => rfl
  | _, .date _, _, _ => rfl
  | _, .timestamp _ _, _, _ => rfl
  | recursion, .object elements, metrics, h => by
      simp only [Value.depth] at h
      rw [extractValue, if_neg (by omega)]
      exact extractElements_of_depth_le (recursion + 1) elements metrics (by omega)
  | recursion, .array elements, metrics, h => by
      simp only [Value.depth] at h
      rw [extractValue, if_neg (by omega)]
      exact extractElements_of_depth_le (recursion + 1) elements metrics (by omega)
  | _, .other, metrics, _ => by simp [extractValue, Value.metrics]

/-- Within the recursion limit the metrics of all elements are appended in full. -/
theorem extractElements_of_depth_le :
    ∀ (recursion : ℕ) (elements : Elements) (metrics : List UInt64),
      recursion + elements.depth ≤ kMaxRecursion →
        extractElements recursion elements metrics = (none, metrics ++ elements.metrics)
  | _, .nil, metrics, _ => by simp [extractElements, Elements.metrics]
  | recursion, .cons _ value rest, metrics, h => by
      simp only [Elements.depth] at h
      rw [extractElements, extractValue_of_depth_le recursion value metrics (by omega)]
      dsimp only
      rw [extractElements_of_depth_le recursion rest _ (by omega), Elements.metrics,
        List.append_assoc]

end

mutual

/-- Within the recursion limit a value is rebuilt from its own metrics, wherever they stand. -/
theorem constructValue_of_depth_le :
    ∀ (recursion : ℕ) (value : Value) (pre post : List UInt64),
      recursion + value.depth ≤ kMaxRecursion →
        constructValue (pre ++ value.metrics ++ post) recursion value pre.length =
          .ok (value, pre.length + value.metrics.length)
  | _, .number _, pre, post, _ => by simp [constructValue, Value.metrics]
  | _, .bool b, pre, post, _ => by cases b <;> simp [constructValue, Value.metrics]
  | _, .date _, pre, post, _ => by simp [constructValue, Value.metrics]
  | _, .timestamp _ _, pre, post, _ => by
      simp [constructValue, Value.metrics, List.getD_eq_getElem?_getD]
  | recursion, .object elements, pre, post, h => by
      simp only [Value.depth] at h
      rw [constructValue, if_neg (by omega), Value.metrics,
        constructElements_of_depth_le (recursion + 1) elements pre post (by omega)]
  | recursion, .array elements, pre, post, h => by
      simp only [Value.depth] at h
      rw [constructValue, if_neg (by omega), Value.metrics,
        constructElements_of_depth_le (recursion + 1) elements pre post (by omega)]
  | _, .other, pre, post, _ => by simp [constructValue, Value.metrics]

/-- Within the recursion limit the elements are rebuilt from their own metrics. -/
theorem constructElements_of_depth_le :
    ∀ (recursion : ℕ) (elements : Elements) (pre post : List UInt64),
      recursion + elements.depth ≤ kMaxRecursion →
        constructElements (pre ++ elements.metrics ++ post) recursion elements pre.length =
          .ok (elements, pre.length + elements.metrics.length)
  | _, .nil, pre, post, _ => by simp [constructElements, Elements.metrics]
  | recursion, .cons _ value rest, pre, post, h => by
      simp only [Elements.depth] at h
      have hvalue := constructValue_of_depth_le recursion value pre (rest.metrics ++ post)
        (by omega)
      have hrest := constructElements_of_depth_le recursion rest (pre ++ value.metrics) post
        (by omega)
      rw [List.append_assoc] at hvalue
      rw [List.length_append] at hrest
      simp only [List.append_assoc] at hrest
      rw [constructElements, Elements.metrics, List.append_assoc, List.append_assoc, hvalue]
      dsimp only
      rw [hrest, List.length_append, Nat.add_assoc]

end

/-- **The reference document is rebuilt from its own metrics**, when it is nested at most
`kMaxRecursion` deep. -/
theorem constructDocumentFromMetrics_extractMetricsFromDocument {ref : Elements}
    (h : ref.depth ≤ kMaxRecursion) :
    extractMetricsFromDocument ref [] = (none, ref.metrics) ∧
      constructDocumentFromMetrics ref (extractMetricsFromDocument ref []).2 = .value ref := by
  have hextract : extractMetricsFromDocument ref [] = (none, ref.metrics) := by
    rw [extractMetricsFromDocument, extractElements_of_depth_le 0 ref [] (by omega),
      List.nil_append]
  have hconstruct := constructElements_of_depth_le 0 ref [] [] (by omega)
  simp only [List.nil_append, List.append_nil, List.length_nil] at hconstruct
  refine ⟨hextract, ?_⟩
  rw [hextract, constructDocumentFromMetrics, hconstruct]

/-! ## The deltas -/

theorem getDelta_of_lt {deltas : List UInt64} {index : ℕ} (h : index < deltas.length) :
    getDelta deltas index = .ok (deltas.getD index 0) :=
  if_pos h

theorem setDelta_of_lt {deltas : List UInt64} {index : ℕ} (value : UInt64)
    (h : index < deltas.length) : setDelta deltas index value = .ok (deltas.set index value) :=
  if_pos h

/-- While `metricsCount * sampleCount` fits in 32 bits, the offset of sample `j` of metric `i`
is below it: `getArrayOffset` does not wrap. -/
theorem getArrayOffset_lt {sampleCount : UInt32} {metricsCount i j : ℕ}
    (hn : metricsCount * sampleCount.toNat < 2 ^ 32) (hi : i < metricsCount)
    (hj : j < sampleCount.toNat) :
    getArrayOffset sampleCount j.toUInt32 i.toUInt32 < metricsCount * sampleCount.toNat := by
  have hlt : i * sampleCount.toNat + j < metricsCount * sampleCount.toNat :=
    calc i * sampleCount.toNat + j < i * sampleCount.toNat + sampleCount.toNat := by omega
      _ = (i + 1) * sampleCount.toNat := (Nat.succ_mul i sampleCount.toNat).symm
      _ ≤ metricsCount * sampleCount.toNat := Nat.mul_le_mul_right _ hi
  have hi' : i ≤ i * sampleCount.toNat := Nat.le_mul_of_pos_right i (by omega)
  simp only [getArrayOffset, UInt32.toNat_add, UInt32.toNat_mul, Nat.toUInt32,
    UInt32.toNat_ofNat']
  rw [Nat.mod_eq_of_lt (show i < 2 ^ 32 by omega), Nat.mod_eq_of_lt (show j < 2 ^ 32 by omega)]
  omega

/-- `j - 1` in `uint32_t` is `j - 1` for a sample `j ≥ 1`. -/
theorem toUInt32_sub_one {j : ℕ} (h : 1 ≤ j) (hj : j < 2 ^ 32) :
    j.toUInt32 - 1 = (j - 1).toUInt32 := by
  apply UInt32.toNat_inj.mp
  rw [UInt32.toNat_sub_of_le _ _ (by rw [UInt32.le_iff_toNat_le]; simp; omega)]
  simp
  omega

/-- **One step of the decoding loop** fails only where it writes `deltas[getArrayOffset(...)]`,
and when it goes on it has written that entry and no other. -/
theorem decodeDelta_cases (sampleCount : UInt32) (i j : ℕ) (s : DecodeState) :
    (∀ ub, decodeDelta sampleCount i j s = .error ub →
      ∃ v, setDelta s.deltas (getArrayOffset sampleCount j.toUInt32 i.toUInt32) v = .error ub) ∧
    (∀ s', decodeDelta sampleCount i j s = .ok (.ok s') →
      ∃ v, setDelta s.deltas (getArrayOffset sampleCount j.toUInt32 i.toUInt32) v =
        .ok s'.deltas) := by
  unfold decodeDelta
  by_cases hz : s.zeroesCount ≠ 0
  · rw [if_pos hz]
    cases hset : setDelta s.deltas (getArrayOffset sampleCount j.toUInt32 i.toUInt32) 0 with
    | error ub =>
        refine ⟨fun ub' h => ⟨0, ?_⟩, fun s' h => ?_⟩
        · cases h
          exact hset
        · cases h
    | ok deltas =>
        refine ⟨fun ub h => ?_, fun s' h => ⟨0, ?_⟩⟩
        · cases h
        · cases h
          exact hset
  · rw [if_neg hz]
    cases hread : s.cdrc.readVarInt with
    | error status =>
        refine ⟨fun ub h => ?_, fun s' h => ?_⟩
        · cases h
        · cases h
    | ok r =>
        obtain ⟨delta, cdrc⟩ := r
        dsimp only
        generalize (if delta = 0 then _ else _ : Except (Option Status) _) = zeroes
        cases zeroes with
        | error status =>
            refine ⟨fun ub h => ?_, fun s' h => ?_⟩
            · cases h
            · cases h
        | ok z =>
            cases hset : setDelta s.deltas (getArrayOffset sampleCount j.toUInt32 i.toUInt32)
              delta with
            | error ub =>
                refine ⟨fun ub' h => ⟨delta, ?_⟩, fun s' h => ?_⟩
                · cases h
                  exact hset
                · cases h
            | ok deltas =>
                refine ⟨fun ub h => ?_, fun s' h => ⟨delta, ?_⟩⟩
                · cases h
                · cases h
                  exact hset

section InBounds

/-! While the product fits in 32 bits, each loop keeps `deltas` at `metricsCount * sampleCount`
entries and touches none past the end. -/

variable {metricsCount sampleCount : UInt32}
  (hn : metricsCount.toNat * sampleCount.toNat < 2 ^ 32)

include hn

theorem decodeDelta_inBounds {i j : ℕ} (hi : i < metricsCount.toNat) (hj : j < sampleCount.toNat)
    {s : DecodeState} (hs : s.deltas.length = metricsCount.toNat * sampleCount.toNat) :
    (∀ ub, decodeDelta sampleCount i j s = .error ub → False) ∧
      ∀ s', decodeDelta sampleCount i j s = .ok (.ok s') →
        s'.deltas.length = metricsCount.toNat * sampleCount.toNat := by
  have hidx := getArrayOffset_lt hn hi hj
  rw [← hs] at hidx
  refine ⟨fun ub h => ?_, fun s' h => ?_⟩
  · obtain ⟨v, hv⟩ := (decodeDelta_cases sampleCount i j s).1 ub h
    rw [setDelta_of_lt v hidx] at hv
    cases hv
  · obtain ⟨v, hv⟩ := (decodeDelta_cases sampleCount i j s).2 s' h
    rw [setDelta_of_lt v hidx] at hv
    rw [← Except.ok.inj hv, List.length_set, hs]

theorem decodeLoop_inBounds {s : DecodeState}
    (hs : s.deltas.length = metricsCount.toNat * sampleCount.toNat) :
    (∀ ub, Loop.forRange (fun i s => Loop.forRange (decodeDelta sampleCount i) 0
      sampleCount.toNat s) 0 metricsCount.toNat s = .error ub → False) ∧
    ∀ s', Loop.forRange (fun i s => Loop.forRange (decodeDelta sampleCount i) 0
      sampleCount.toNat s) 0 metricsCount.toNat s = .ok (.ok s') →
        s'.deltas.length = metricsCount.toNat * sampleCount.toNat :=
  Loop.forRange_induction
    (fun _ (s : DecodeState) => s.deltas.length = metricsCount.toNat * sampleCount.toNat)
    (fun _ => False) _ _ _
    (fun _ s _ hi hs => Loop.forRange_induction
      (fun _ (s : DecodeState) => s.deltas.length = metricsCount.toNat * sampleCount.toNat)
      (fun _ => False) _ _ s
      (fun _ _ _ hj hs => decodeDelta_inBounds hn (by omega) (by omega) hs) hs) hs

theorem addMetric_inBounds (hsc : 0 < sampleCount.toNat) (metrics : List UInt64) {i : ℕ}
    (hi : i < metricsCount.toNat) {deltas : List UInt64}
    (hd : deltas.length = metricsCount.toNat * sampleCount.toNat) :
    ∃ deltas', addMetric sampleCount metrics i deltas = .ok (.ok deltas') ∧
      deltas'.length = metricsCount.toNat * sampleCount.toNat := by
  have hidx : getArrayOffset sampleCount 0 i.toUInt32 < deltas.length :=
    hd ▸ @getArrayOffset_lt sampleCount _ i 0 hn hi hsc
  rw [addMetric, getDelta_of_lt hidx, Except.ok_bind, setDelta_of_lt _ hidx]
  exact ⟨_, rfl, (List.length_set ..).trans hd⟩

theorem addPrevious_inBounds {i j : ℕ} (hi : i < metricsCount.toNat) (hj : 1 ≤ j)
    (hj' : j < sampleCount.toNat) {deltas : List UInt64}
    (hd : deltas.length = metricsCount.toNat * sampleCount.toNat) :
    ∃ deltas', addPrevious sampleCount i j deltas = .ok (.ok deltas') ∧
      deltas'.length = metricsCount.toNat * sampleCount.toNat := by
  have hidx : getArrayOffset sampleCount j.toUInt32 i.toUInt32 < deltas.length :=
    hd ▸ getArrayOffset_lt hn hi hj'
  -- sample `j - 1` in `uint32_t` is sample `j - 1`
  have hprev : getArrayOffset sampleCount (j.toUInt32 - 1) i.toUInt32 < deltas.length := by
    rw [toUInt32_sub_one hj (by have := sampleCount.toNat_lt; omega), hd]
    exact getArrayOffset_lt hn hi (by omega)
  rw [addPrevious, getDelta_of_lt hprev, Except.ok_bind, getDelta_of_lt hidx, Except.ok_bind,
    setDelta_of_lt _ hidx]
  exact ⟨_, rfl, (List.length_set ..).trans hd⟩

/-- The loops that add the deltas up keep their length and touch no entry past the end. -/
theorem addLoops_inBounds (hsc : 0 < sampleCount.toNat) (metrics : List UInt64)
    {deltas : List UInt64} (hd : deltas.length = metricsCount.toNat * sampleCount.toNat) :
    ∃ deltas', Loop.forRange (addMetric sampleCount metrics) 0 metricsCount.toNat deltas =
      .ok (.ok deltas') ∧
    ∃ deltas'', Loop.forRange (fun i deltas =>
      Loop.forRange (addPrevious sampleCount i) 1 (sampleCount.toNat - 1) deltas)
      0 metricsCount.toNat deltas' = .ok (.ok deltas'') ∧
        deltas''.length = metricsCount.toNat * sampleCount.toNat := by
  let Sized : ℕ → List UInt64 → Prop :=
    fun _ deltas => deltas.length = metricsCount.toNat * sampleCount.toNat
  obtain ⟨deltas', h', hd'⟩ := Loop.forRange_invariant Sized metricsCount.toNat 0 deltas
    (fun i _ _ hi hd => addMetric_inBounds hn hsc metrics (show i < metricsCount.toNat by omega) hd)
    hd
  refine ⟨deltas', h', Loop.forRange_invariant Sized metricsCount.toNat 0 deltas'
    (fun i deltas _ hi hd => ?_) hd'⟩
  exact Loop.forRange_invariant Sized (sampleCount.toNat - 1) 1 deltas
    (fun j _ hj hj' hd => addPrevious_inBounds hn (show i < metricsCount.toNat by omega) hj
      (show j < sampleCount.toNat by omega) hd) hd

/-- The metrics of each sample are read in range. -/
theorem sampleMetrics_inBounds {i : ℕ} (hi : i < sampleCount.toNat) {deltas : List UInt64}
    (hd : deltas.length = metricsCount.toNat * sampleCount.toNat) :
    ∃ metrics, sampleMetrics sampleCount metricsCount i deltas = .ok metrics := by
  obtain ⟨metrics, h, _⟩ := @Except.mapM_eq_ok_of_forall _ _ _ _ (fun _ _ => True)
    (List.range metricsCount.toNat) fun j hj =>
      ⟨_, getDelta_of_lt (hd ▸ getArrayOffset_lt hn (List.mem_range.mp hj) hi), trivial⟩
  exact ⟨metrics, h⟩

/-- Rebuilding a sample fails only at `getValue()` of a failed `constructDocumentFromMetrics`. -/
theorem rebuildSample_inBounds (ref : Elements) {deltas : List UInt64}
    (hd : deltas.length = metricsCount.toNat * sampleCount.toNat) {i : ℕ}
    (hi : i < sampleCount.toNat) (docs : List Elements) (ub : UndefinedBehavior)
    (h : rebuildSample ref sampleCount metricsCount deltas i docs = .error ub) :
    ∃ s, ub = .getValueOfStatus s := by
  obtain ⟨metrics, hm⟩ := sampleMetrics_inBounds hn hi hd
  rw [rebuildSample, hm, Except.ok_bind] at h
  cases hc : constructDocumentFromMetrics ref metrics with
  | value doc =>
      rw [hc] at h
      cases h
  | status s =>
      rw [hc] at h
      cases h
      exact ⟨s, rfl⟩

/-- The last loop fails only at `getValue()` of a failed `constructDocumentFromMetrics`. -/
theorem rebuildLoop_inBounds (ref : Elements) {deltas : List UInt64}
    (hd : deltas.length = metricsCount.toNat * sampleCount.toNat) (docs : List Elements)
    (ub : UndefinedBehavior)
    (h : Loop.forRange (rebuildSample ref sampleCount metricsCount deltas) 0 sampleCount.toNat
      docs = .error ub) :
    ∃ s, ub = .getValueOfStatus s :=
  (Loop.forRange_induction (fun _ _ => True) (fun ub => ∃ s, ub = .getValueOfStatus s) _ _ docs
    (fun i docs _ hi _ =>
      ⟨rebuildSample_inBounds hn ref hd (show i < sampleCount.toNat by omega) docs,
        fun _ _ => trivial⟩) trivial).1 ub h

/-- **While `metricsCount * sampleCount` fits in 32 bits, every access to `deltas` is in
range**: the only undefined behaviour left is `getValue()` of a failed
`constructDocumentFromMetrics`. -/
theorem decodeSamples_inBounds (ref : Elements) (metrics : List UInt64)
    (cdc : ConstDataRangeCursor) (ub : UndefinedBehavior)
    (h : decodeSamples ref metrics metricsCount sampleCount cdc = .error ub) :
    ∃ s, ub = .getValueOfStatus s := by
  have hsc : sampleCount ≠ 0 := by
    rintro rfl
    rw [decodeSamples, if_pos rfl] at h
    cases h
  have hsc' : 0 < sampleCount.toNat := by
    rw [Nat.pos_iff_ne_zero, Ne, ← UInt32.toNat_zero, UInt32.toNat_inj]
    exact hsc
  have hlen : (List.replicate (metricsCount * sampleCount).toNat (0 : UInt64)).length =
      metricsCount.toNat * sampleCount.toNat := by
    rw [List.length_replicate, UInt32.toNat_mul, Nat.mod_eq_of_lt hn]
  obtain ⟨hnofail, hdecoded⟩ :=
    @decodeLoop_inBounds metricsCount sampleCount hn ⟨cdc, 0, _⟩ hlen
  rw [decodeSamples, if_neg hsc] at h
  dsimp only at h
  split at h
  next ub' hdec => exact (hnofail ub' hdec).elim
  next status _ => cases h
  next s hdec =>
    obtain ⟨deltas', h', deltas'', h'', hd''⟩ := addLoops_inBounds hn hsc' metrics (hdecoded s hdec)
    rw [h', Except.ok_bind] at h
    dsimp only at h
    rw [h'', Except.ok_bind] at h
    dsimp only at h
    cases hr : Loop.forRange (rebuildSample ref sampleCount metricsCount deltas'') 0
      sampleCount.toNat [ref] with
    | error ub' =>
        rw [hr, Except.error_bind] at h
        cases h
        exact rebuildLoop_inBounds hn ref hd'' [ref] _ hr
    | ok r =>
        rcases r with e | docs
        · exact e.elim
        · rw [hr, Except.ok_bind] at h
          cases h

end InBounds


/-! ## The documents returned -/

/-- Each iteration of the last loop appends one document. -/
theorem rebuildSample_cases {ref : Elements} {sampleCount metricsCount : UInt32}
    {deltas : List UInt64} {i : ℕ} {docs docs' : List Elements}
    (h : rebuildSample ref sampleCount metricsCount deltas i docs = .ok (.ok docs')) :
    ∃ doc, docs' = docs ++ [doc] := by
  unfold rebuildSample at h
  cases hm : sampleMetrics sampleCount metricsCount i deltas with
  | error ub =>
      rw [hm, Except.error_bind] at h
      cases h
  | ok metrics =>
      rw [hm, Except.ok_bind] at h
      cases hc : constructDocumentFromMetrics ref metrics with
      | value doc =>
          rw [hc] at h
          cases h
          exact ⟨doc, rfl⟩
      | status s =>
          rw [hc] at h
          cases h

/-- **A result with a value holds the reference document and one document per sample.** -/
theorem decodeSamples_length {ref : Elements} {metrics : List UInt64}
    {metricsCount sampleCount : UInt32} {cdc : ConstDataRangeCursor} {docs : List Elements}
    (h : decodeSamples ref metrics metricsCount sampleCount cdc = .ok (.value docs)) :
    ∃ samples, docs = ref :: samples ∧ samples.length = sampleCount.toNat := by
  by_cases hsc : sampleCount = 0
  · rw [decodeSamples, if_pos hsc] at h
    cases h
    exact ⟨[], rfl, by rw [hsc]; rfl⟩
  rw [decodeSamples, if_neg hsc] at h
  dsimp only at h
  split at h
  next ub _ => cases h
  next status _ => cases h
  next s _ =>
    obtain ⟨r₁, _, h⟩ := Except.bind_eq_ok.mp h
    rcases r₁ with e | deltas'
    · exact e.elim
    obtain ⟨r₂, _, h⟩ := Except.bind_eq_ok.mp h
    rcases r₂ with e | deltas''
    · exact e.elim
    obtain ⟨r₃, hr, h⟩ := Except.bind_eq_ok.mp h
    rcases r₃ with e | docs'
    · exact e.elim
    cases h
    have hrun := (Loop.forRange_induction
      (fun i docs => ∃ samples, docs = ref :: samples ∧ samples.length = i) (fun _ => True) _ _ _
      (fun i docs _ _ ⟨samples, hdocs, hlen⟩ => ⟨fun _ _ => trivial, fun docs' h => by
        obtain ⟨doc, rfl⟩ := rebuildSample_cases h
        exact ⟨samples ++ [doc], by rw [hdocs, List.cons_append], by simp [hlen]⟩⟩)
      ⟨[], rfl, rfl⟩).2 _ hr
    simpa using hrun

/-! ## Reading a chunk -/

section Uncompress

variable (loadValidatedBSONObj : List UInt8 → Except Status (Elements × ℕ))
  (uncompressBlock : ConstDataRangeCursor → ℕ → Except Status (List UInt8))

/-- Past a length prefix within the limit, `uncompress` reads what the zlib step inflates. -/
theorem uncompress_eq_readUncompressed {b₀ b₁ b₂ b₃ : UInt8} {stream uncompressed : List UInt8}
    (hlen : (b₀.toNat + 2 ^ 8 * b₁.toNat + 2 ^ 16 * b₂.toNat + 2 ^ 24 * b₃.toNat).toUInt32.toNat ≤
      10000000)
    (h : uncompressBlock ⟨stream, 4⟩
      (b₀.toNat + 2 ^ 8 * b₁.toNat + 2 ^ 16 * b₂.toNat + 2 ^ 24 * b₃.toNat).toUInt32.toNat =
        .ok uncompressed) :
    uncompress loadValidatedBSONObj uncompressBlock (b₀ :: b₁ :: b₂ :: b₃ :: stream) =
      readUncompressed loadValidatedBSONObj uncompressed := by
  simp only [uncompress, ConstDataRangeCursor.readUInt32, ConstDataRangeCursor.advance,
    List.drop_succ_cons, List.drop_zero, Nat.zero_add]
  rw [if_neg (by omega), h]

/-- `readUncompressed` reads the loader's result on the buffer and nothing else of it. -/
theorem readUncompressed_congr {uncompressed : List UInt8} {r : Except Status (Elements × ℕ)}
    (h : loadValidatedBSONObj uncompressed = r) :
    readUncompressed loadValidatedBSONObj uncompressed = readUncompressed (fun _ => r) uncompressed := by
  simp only [readUncompressed, h]

end Uncompress

/-- `{a: NumberInt(1), b: NumberInt(2)}`. -/
def twoNumbers : Elements :=
  .cons "a" (.number 1) (.cons "b" (.number 2) .nil)

/-- An inflated chunk of 28 bytes: `twoNumbers` (19 bytes), 2 metrics and `2^31` samples, whose
product wraps to 0 in `uint32_t`, and the delta 1. -/
def wrappedCountsChunk : List UInt8 :=
  [19, 0, 0, 0, 16, 97, 0, 1, 0, 0, 0, 16, 98, 0, 2, 0, 0, 0, 0] ++ [2, 0, 0, 0] ++
    [0, 0, 0, 128] ++ [1]

/-- `{a: NumberInt(5)}`. -/
def oneNumber : Elements :=
  .cons "a" (.number 5) .nil

/-- An inflated chunk of 21 bytes: `oneNumber` (12 bytes), 1 metric, 1 sample, and a zero delta
with the count of zeroes after it cut off. -/
def cutZeroRunChunk : List UInt8 :=
  [12, 0, 0, 0, 16, 97, 0, 5, 0, 0, 0, 0] ++ [1, 0, 0, 0] ++ [1, 0, 0, 0] ++ [0]

/-- `{a: {a: ... {a: {}}}}`, `n` objects deep. -/
def nestedObjects : ℕ → Elements
  | 0 => .nil
  | n + 1 => .cons "a" (.object (nestedObjects n)) .nil

/-- The BSON bytes of `nestedObjects n`, `5 + 8 * n` of them. -/
def nestedObjectsBytes : ℕ → List UInt8
  | 0 => [5, 0, 0, 0, 0]
  | n + 1 => [(13 + 8 * n).toUInt8, 0, 0, 0, 3, 97, 0] ++ nestedObjectsBytes n ++ [0]

/-- An inflated chunk of 101 bytes: `nestedObjects 11` (93 bytes), no metrics and 1 sample. -/
def deepReferenceChunk : List UInt8 :=
  nestedObjectsBytes 11 ++ [0, 0, 0, 0] ++ [1, 0, 0, 0]

/-- Three chunks on which `uncompress` does what the C++ standard leaves undefined, or returns
an OK status without a value, whatever the compressed stream and however the zlib step and the
loader reach the inflated buffer and the reference document.
* The counts multiply to `2 * 2^31`, which wraps to 0: the guard passes, `deltas` is empty, and
  the first delta is written to `deltas[0]`.
* A zero delta is the last byte: the count of zeroes after it cannot be read, and
  `return swDelta.getStatus()` returns the OK status of the first read.
* The reference document nests 11 objects: `extractMetricsFromDocument` stops at the recursion
  limit, its status is ignored, and `getValue()` is called on the status of
  `constructDocumentFromMetrics`. -/
theorem uncompress_undefinedBehavior :
    (∀ (loadValidatedBSONObj : List UInt8 → Except Status (Elements × ℕ))
      (uncompressBlock : ConstDataRangeCursor → ℕ → Except Status (List UInt8))
      (stream : List UInt8),
      uncompressBlock ⟨stream, 4⟩ 28 = .ok wrappedCountsChunk →
      loadValidatedBSONObj wrappedCountsChunk = .ok (twoNumbers, 19) →
      uncompress loadValidatedBSONObj uncompressBlock (28 :: 0 :: 0 :: 0 :: stream) =
        .error (.outOfRange 0 0)) ∧
    (∀ (loadValidatedBSONObj : List UInt8 → Except Status (Elements × ℕ))
      (uncompressBlock : ConstDataRangeCursor → ℕ → Except Status (List UInt8))
      (stream : List UInt8),
      uncompressBlock ⟨stream, 4⟩ 21 = .ok cutZeroRunChunk →
      loadValidatedBSONObj cutZeroRunChunk = .ok (oneNumber, 12) →
      uncompress loadValidatedBSONObj uncompressBlock (21 :: 0 :: 0 :: 0 :: stream) =
        .ok (.status none)) ∧
    (∀ (loadValidatedBSONObj : List UInt8 → Except Status (Elements × ℕ))
      (uncompressBlock : ConstDataRangeCursor → ℕ → Except Status (List UInt8))
      (stream : List UInt8),
      uncompressBlock ⟨stream, 4⟩ 101 = .ok deepReferenceChunk →
      loadValidatedBSONObj deepReferenceChunk = .ok (nestedObjects 11, 93) →
      uncompress loadValidatedBSONObj uncompressBlock (101 :: 0 :: 0 :: 0 :: stream) =
        .error (.getValueOfStatus (some recursionLimitReached))) := by
  refine ⟨fun load block stream hblock hload => ?_, fun load block stream hblock hload => ?_,
    fun load block stream hblock hload => ?_⟩
  · rw [uncompress_eq_readUncompressed load block (by decide) hblock,
      readUncompressed_congr load hload]
    decide
  · rw [uncompress_eq_readUncompressed load block (by decide) hblock,
      readUncompressed_congr load hload]
    decide
  · rw [uncompress_eq_readUncompressed load block (by decide) hblock,
      readUncompressed_congr load hload]
    decide

theorem uncompress_undefinedBehavior_inflated :
    uncompress (fun _ => .ok (twoNumbers, 19)) (fun _ _ => .ok wrappedCountsChunk)
      [28, 0, 0, 0] = .error (.outOfRange 0 0) ∧
    uncompress (fun _ => .ok (oneNumber, 12)) (fun _ _ => .ok cutZeroRunChunk)
      [21, 0, 0, 0] = .ok (.status none) ∧
    uncompress (fun _ => .ok (nestedObjects 11, 93)) (fun _ _ => .ok deepReferenceChunk)
      [101, 0, 0, 0] = .error (.getValueOfStatus (some recursionLimitReached)) :=
  ⟨uncompress_undefinedBehavior.1 _ _ [] rfl rfl, uncompress_undefinedBehavior.2.1 _ _ [] rfl rfl,
    uncompress_undefinedBehavior.2.2 _ _ [] rfl rfl⟩

end Ftdc
end Mongo
