import Mongo.Lib.Except
import Mongo.Query.IntervalSetSpec

/-!
# Intersectize intersects two interval lists exactly

`IndexBoundsBuilder::intersectize` walks two canonical interval lists with one index each.  One
iteration either drops an interval that lies wholly before the other list's current one
(`precedes`, `precedes could union`, `succeeds`), or pushes the intersection of the two current
intervals and moves on the one that ends first, or both when they are equal.

`IntersectResult A B R` is what the loop returns for the suffixes `A` and `B` it has still to
visit: separated intervals (`Separated`), each inside an interval of either suffix, holding
exactly the values both suffixes hold.  One lemma per kind of iteration builds it from the
result of the next iteration (`IntersectResult.dropFirst`, `IntersectResult.pushFirst`,
`IntersectResult.pushBoth` and their mirror images), and the run lemma
`intersectizeLoop_spec` follows by induction on the two lengths.  The pushed interval ends
before anything the next iterations push because those lie inside intervals that come after the
one that ended first.
-/

namespace Mongo

open TaggedBound Mongo.Interval

variable {V : Type} [LinearOrder V]

/-- `r` lies within `a`, on tagged ends. -/
def Interval.Inside (r a : Interval V) : Prop :=
  a.lo ≤ r.lo ∧ r.hi ≤ a.hi

/-- What the loop returns for the suffixes `A` and `B` still to visit. -/
structure IntersectResult (A B R : List (Interval V)) : Prop where
  separated : Separated R
  inside : ∀ r ∈ R, (∃ a ∈ A, r.Inside a) ∧ ∃ b ∈ B, r.Inside b
  covers : ∀ x, (∃ r ∈ R, r.Contains 1 x) ↔
    (∃ a ∈ A, a.Contains 1 x) ∧ ∃ b ∈ B, b.Contains 1 x

/-! ## One iteration of the loop -/

section Step

variable [Inhabited V] {a b c : Interval V} {A B : List (Interval V)}

theorem intersectizeLoop_nil_left : intersectizeLoop ([] : List (Interval V)) B = .ok [] := by
  simp [intersectizeLoop]

theorem intersectizeLoop_nil_right : intersectizeLoop A ([] : List (Interval V)) = .ok [] := by
  cases A <;> simp [intersectizeLoop]

theorem intersectizeLoop_of_precedes
    (h : a.compare b = .precedes ∨ a.compare b = .precedesCouldUnion) :
    intersectizeLoop (a :: A) (b :: B) = intersectizeLoop A (b :: B) := by
  rw [intersectizeLoop]
  rcases h with h | h <;> simp [h]

theorem intersectizeLoop_of_succeeds (h : a.compare b = .succeeds) :
    intersectizeLoop (a :: A) (b :: B) = intersectizeLoop (a :: A) B := by
  rw [intersectizeLoop]
  simp [h]

theorem intersectizeLoop_of_equals (h : a.compare b = .equals)
    (hc : a.intersect b (a.compare b) = .ok c) :
    intersectizeLoop (a :: A) (b :: B) = (c :: ·) <$> intersectizeLoop A B := by
  rw [intersectizeLoop]
  rw [h] at hc
  simp only [h, hc, reduceIte, reduceCtorEq, Except.ok_bind]
  cases intersectizeLoop A B <;> rfl

/-- `within` and `overlapsBefore`: `argiv[argidx]` ends first and moves on. -/
theorem intersectizeLoop_of_advanceFirst
    (h : a.compare b = .within ∨ a.compare b = .overlapsBefore)
    (hc : a.intersect b (a.compare b) = .ok c) :
    intersectizeLoop (a :: A) (b :: B) = (c :: ·) <$> intersectizeLoop A (b :: B) := by
  rw [intersectizeLoop]
  rcases h with h | h <;> rw [h] at hc <;> simp only [h, hc, reduceIte, reduceCtorEq, Except.ok_bind] <;>
    cases intersectizeLoop A (b :: B) <;> rfl

/-- `contains` and `overlapsAfter`: `iv[ividx]` ends first and moves on. -/
theorem intersectizeLoop_of_advanceSecond
    (h : a.compare b = .contains ∨ a.compare b = .overlapsAfter)
    (hc : a.intersect b (a.compare b) = .ok c) :
    intersectizeLoop (a :: A) (b :: B) = (c :: ·) <$> intersectizeLoop (a :: A) B := by
  rw [intersectizeLoop]
  rcases h with h | h <;> rw [h] at hc <;> simp only [h, hc, reduceIte, reduceCtorEq, Except.ok_bind] <;>
    cases intersectizeLoop (a :: A) B <;> rfl

end Step

/-! ## What each iteration keeps -/

namespace Separated

variable {b : Interval V} {B : List (Interval V)}

/-- A value below the end of the first interval of a separated list lies in none of the others. -/
theorem not_contains_tail (h : Separated (b :: B)) {x : V} (hx : point x < b.hi) :
    ¬ ∃ b' ∈ B, b'.Contains 1 x := by
  rintro ⟨b', hb', hxb'⟩
  have hle := (cons_iff.mp h).2.1 b' hb'
  rw [contains_one_iff] at hxb'
  exact absurd hxb'.1 (by order)

end Separated

namespace IntersectResult

variable {a b c : Interval V} {A B R : List (Interval V)}

theorem nil_left : IntersectResult [] B ([] : List (Interval V)) :=
  ⟨Separated.nil, by simp, by simp⟩

theorem nil_right : IntersectResult A [] ([] : List (Interval V)) :=
  ⟨Separated.nil, by simp, by simp⟩

/-- The two lists play the same part. -/
theorem symm (h : IntersectResult A B R) : IntersectResult B A R where
  separated := h.separated
  inside := fun r hr => (h.inside r hr).symm
  covers := fun x => (h.covers x).trans and_comm

/-- `argiv[argidx]` ends before `iv[ividx]` starts: it meets nothing of `B`, and is dropped. -/
theorem dropFirst (hab : a.hi ≤ b.lo) (hB : Separated (b :: B))
    (h : IntersectResult A (b :: B) R) : IntersectResult (a :: A) (b :: B) R where
  separated := h.separated
  inside := fun r hr => by
    obtain ⟨⟨a', ha', hin⟩, hb⟩ := h.inside r hr
    exact ⟨⟨a', List.mem_cons_of_mem a ha', hin⟩, hb⟩
  covers := fun x => by
    rw [h.covers x]
    simp only [List.exists_mem_cons_iff]
    constructor
    · rintro ⟨hA, hB'⟩
      exact ⟨Or.inr hA, hB'⟩
    · rintro ⟨hxa | hA, hB'⟩
      · have hx : point x < b.lo := lt_of_lt_of_le ((contains_one_iff.mp hxa).2) hab
        exact absurd (by simpa using hB') (hB.not_contains_of_lt_lo hx)
      · exact ⟨hA, hB'⟩

theorem dropSecond (hba : b.hi ≤ a.lo) (hA : Separated (a :: A))
    (h : IntersectResult (a :: A) B R) : IntersectResult (a :: A) (b :: B) R :=
  (dropFirst hba hA h.symm).symm

/-- The intersection `c` of `argiv[argidx]` and `iv[ividx]` is pushed, and `argiv[argidx]`,
which ends first, moves on. -/
theorem pushFirst (hc : ∀ x, c.Contains 1 x ↔ a.Contains 1 x ∧ b.Contains 1 x)
    (hca : c.Inside a) (hcb : c.Inside b) (hclt : c.lo < c.hi) (hab : a.hi ≤ b.hi)
    (hA : Separated (a :: A)) (hB : Separated (b :: B))
    (h : IntersectResult A (b :: B) R) : IntersectResult (a :: A) (b :: B) (c :: R) where
  separated := by
    refine Separated.cons_iff.mpr ⟨hclt, fun r hr => ?_, h.separated⟩
    obtain ⟨⟨a', ha', hin, -⟩, -⟩ := h.inside r hr
    have hle := (Separated.cons_iff.mp hA).2.1 a' ha'
    exact hca.2.trans (hle.trans hin)
  inside := fun r hr => by
    rcases List.mem_cons.mp hr with rfl | hr
    · exact ⟨⟨a, List.mem_cons_self .., hca⟩, ⟨b, List.mem_cons_self .., hcb⟩⟩
    · obtain ⟨⟨a', ha', hin⟩, hb⟩ := h.inside r hr
      exact ⟨⟨a', List.mem_cons_of_mem a ha', hin⟩, hb⟩
  covers := fun x => by
    have hnot : a.Contains 1 x → ¬ ∃ b' ∈ B, b'.Contains 1 x := fun hxa =>
      hB.not_contains_tail (lt_of_lt_of_le ((contains_one_iff.mp hxa).2) hab)
    rw [List.exists_mem_cons_iff, hc, h.covers x, List.exists_mem_cons_iff,
      List.exists_mem_cons_iff]
    constructor
    · rintro (⟨hxa, hxb⟩ | ⟨hA', hB'⟩)
      · exact ⟨Or.inl hxa, Or.inl hxb⟩
      · exact ⟨Or.inr hA', hB'⟩
    · rintro ⟨hxa | hA', hxb | hB'⟩
      · exact Or.inl ⟨hxa, hxb⟩
      · exact absurd hB' (hnot hxa)
      · exact Or.inr ⟨hA', Or.inl hxb⟩
      · exact Or.inr ⟨hA', Or.inr hB'⟩

theorem pushSecond (hc : ∀ x, c.Contains 1 x ↔ a.Contains 1 x ∧ b.Contains 1 x)
    (hca : c.Inside a) (hcb : c.Inside b) (hclt : c.lo < c.hi) (hba : b.hi ≤ a.hi)
    (hA : Separated (a :: A)) (hB : Separated (b :: B))
    (h : IntersectResult (a :: A) B R) : IntersectResult (a :: A) (b :: B) (c :: R) :=
  (pushFirst (fun x => (hc x).trans and_comm) hcb hca hclt hba hB hA h.symm).symm

/-- Equal intervals: their intersection is pushed and both move on. -/
theorem pushBoth (hc : ∀ x, c.Contains 1 x ↔ a.Contains 1 x ∧ b.Contains 1 x)
    (hca : c.Inside a) (hcb : c.Inside b) (hclt : c.lo < c.hi) (hab : a.hi = b.hi)
    (hA : Separated (a :: A)) (hB : Separated (b :: B))
    (h : IntersectResult A B R) : IntersectResult (a :: A) (b :: B) (c :: R) where
  separated := by
    refine Separated.cons_iff.mpr ⟨hclt, fun r hr => ?_, h.separated⟩
    obtain ⟨⟨a', ha', hin, -⟩, -⟩ := h.inside r hr
    have hle := (Separated.cons_iff.mp hA).2.1 a' ha'
    exact hca.2.trans (hle.trans hin)
  inside := fun r hr => by
    rcases List.mem_cons.mp hr with rfl | hr
    · exact ⟨⟨a, List.mem_cons_self .., hca⟩, ⟨b, List.mem_cons_self .., hcb⟩⟩
    · obtain ⟨⟨a', ha', hin⟩, ⟨b', hb', hin'⟩⟩ := h.inside r hr
      exact ⟨⟨a', List.mem_cons_of_mem a ha', hin⟩, ⟨b', List.mem_cons_of_mem b hb', hin'⟩⟩
  covers := fun x => by
    have hnotB : a.Contains 1 x → ¬ ∃ b' ∈ B, b'.Contains 1 x := fun hxa =>
      hB.not_contains_tail (hab ▸ (contains_one_iff.mp hxa).2)
    have hnotA : b.Contains 1 x → ¬ ∃ a' ∈ A, a'.Contains 1 x := fun hxb =>
      hA.not_contains_tail (hab ▸ (contains_one_iff.mp hxb).2)
    rw [List.exists_mem_cons_iff, hc, h.covers x, List.exists_mem_cons_iff,
      List.exists_mem_cons_iff]
    constructor
    · rintro (⟨hxa, hxb⟩ | ⟨hA', hB'⟩)
      · exact ⟨Or.inl hxa, Or.inl hxb⟩
      · exact ⟨Or.inr hA', Or.inr hB'⟩
    · rintro ⟨hxa | hA', hxb | hB'⟩
      · exact Or.inl ⟨hxa, hxb⟩
      · exact absurd hB' (hnotB hxa)
      · exact absurd hA' (hnotA hxb)
      · exact Or.inr ⟨hA', hB'⟩

end IntersectResult

/-! ## The whole loop -/

/-- The intersection after an intersecting answer: inside both intervals, non-null, holding the
values in both. -/
theorem Interval.intersect_inside [Inhabited V] {a b : Interval V}
    (h : (a.compare b).intersecting = true) (ha : a.lo < a.hi) (hb : b.lo < b.hi) :
    ∃ c, a.intersect b (a.compare b) = .ok c ∧
      (∀ x, c.Contains 1 x ↔ a.Contains 1 x ∧ b.Contains 1 x) ∧
      c.Inside a ∧ c.Inside b ∧ c.lo < c.hi := by
  obtain ⟨c, hc, hlo, hhi⟩ := intersect_spec h
  have hover := (intersecting_compare a b).mp h
  refine ⟨c, hc, contains_iff_and hlo hhi, ⟨?_, ?_⟩, ⟨?_, ?_⟩, ?_⟩
  · rw [hlo]; exact le_max_left _ _
  · rw [hhi]; exact min_le_left _ _
  · rw [hlo]; exact le_max_right _ _
  · rw [hhi]; exact min_le_right _ _
  · rw [hlo, hhi, max_lt_iff, lt_min_iff, lt_min_iff]
    exact ⟨⟨ha, hover.1⟩, ⟨hover.2, hb⟩⟩

/-- **The run lemma.**  On separated lists the loop ends without failing its `verify`s and
returns their exact intersection, separated. -/
theorem intersectizeLoop_spec [Inhabited V] :
    ∀ (A B : List (Interval V)), Separated A → Separated B →
      ∃ R, intersectizeLoop A B = .ok R ∧ IntersectResult A B R := by
  suffices h : ∀ n (A B : List (Interval V)), A.length + B.length = n → Separated A →
      Separated B → ∃ R, intersectizeLoop A B = .ok R ∧ IntersectResult A B R from
    fun A B => h _ A B rfl
  intro n
  induction n using Nat.strong_induction_on with
  | _ n ih =>
  intro A B hn hA hB
  cases A with
  | nil => exact ⟨[], intersectizeLoop_nil_left, IntersectResult.nil_left⟩
  | cons a A =>
  cases B with
  | nil => exact ⟨[], intersectizeLoop_nil_right, IntersectResult.nil_right⟩
  | cons b B =>
  have ha := (Separated.cons_iff.mp hA).1
  have hb := (Separated.cons_iff.mp hB).1
  have ihA := ih _ (by simp at hn ⊢; omega) A (b :: B) rfl hA.tail hB
  have ihB := ih _ (by simp at hn ⊢; omega) (a :: A) B rfl hA hB.tail
  have ihAB := ih _ (by simp at hn ⊢; omega) A B rfl hA.tail hB.tail
  have hspec := compare_spec a b
  generalize hcmp : a.compare b = cmp at hspec
  cases hspec with
  | precedes hni hlt _ | precedesCouldUnion hni hlt _ _ =>
      obtain ⟨R, hR, hres⟩ := ihA
      have hab : a.hi ≤ b.lo := le_of_not_gt fun h => hni ⟨by order, h⟩
      refine ⟨R, ?_, hres.dropFirst hab hB⟩
      rw [intersectizeLoop_of_precedes (by simp [hcmp]), hR]
  | succeeds hni hle =>
      obtain ⟨R, hR, hres⟩ := ihB
      have hba : b.hi ≤ a.lo := le_of_not_gt fun h => hni ⟨h, by order⟩
      exact ⟨R, by rw [intersectizeLoop_of_succeeds hcmp, hR], hres.dropSecond hba hA⟩
  | equals he =>
      subst he
      obtain ⟨c, hc, hcov, hca, hcb, hclt⟩ :=
        intersect_inside (by simp [hcmp, IntervalComparison.intersecting]) ha hb
      obtain ⟨R, hR, hres⟩ := ihAB
      refine ⟨c :: R, ?_, hres.pushBoth hcov hca hcb hclt rfl hA hB⟩
      rw [intersectizeLoop_of_equals hcmp hc, hR]
      rfl
  | within _ h₂ | overlapsBefore _ _ h₂ =>
      obtain ⟨c, hc, hcov, hca, hcb, hclt⟩ :=
        intersect_inside (by simp [hcmp, IntervalComparison.intersecting]) ha hb
      obtain ⟨R, hR, hres⟩ := ihA
      refine ⟨c :: R, ?_, hres.pushFirst hcov hca hcb hclt (by order) hA hB⟩
      rw [intersectizeLoop_of_advanceFirst (by simp [hcmp]) hc, hR]
      rfl
  | contains _ h₂ | overlapsAfter _ h₂ =>
      obtain ⟨c, hc, hcov, hca, hcb, hclt⟩ :=
        intersect_inside (by simp [hcmp, IntervalComparison.intersecting]) ha hb
      obtain ⟨R, hR, hres⟩ := ihB
      refine ⟨c :: R, ?_, hres.pushSecond hcov hca hcb hclt (by order) hA hB⟩
      rw [intersectizeLoop_of_advanceSecond (by simp [hcmp]) hc, hR]
      rfl

/-- **Intersectize is exact.**  For two canonical interval lists of the same field,
`intersectize` succeeds, keeps the field's name, and leaves a canonical list holding exactly the
values that lie in an interval of each. -/
theorem intersectize_exact [Inhabited V] (A B : OrderedIntervalList V) (hname : A.name = B.name)
    (hA : Canonical A.intervals) (hB : Canonical B.intervals) :
    ∃ C, intersectize A B = .ok C ∧ C.name = B.name ∧ Canonical C.intervals ∧
      ∀ x, (∃ i ∈ C.intervals, i.Contains 1 x) ↔
        (∃ a ∈ A.intervals, a.Contains 1 x) ∧ ∃ b ∈ B.intervals, b.Contains 1 x := by
  obtain ⟨R, hR, hres⟩ := intersectizeLoop_spec A.intervals B.intervals
    (canonical_iff_separated.mp hA) (canonical_iff_separated.mp hB)
  refine ⟨{ B with intervals := R }, ?_, rfl, canonical_iff_separated.mpr hres.separated,
    hres.covers⟩
  simp [intersectize, hname, hR]

/-- `[1, 3]` and `(5, 8]` against `[2, 6)`: the result is `[2, 3]` and `(5, 6)`. -/
theorem intersectize_exact_two :
    (⟨[⟨1, true, 3, true⟩, ⟨5, false, 8, true⟩], ""⟩ : OrderedIntervalList ℕ).name =
        (⟨[⟨2, true, 6, false⟩], ""⟩ : OrderedIntervalList ℕ).name ∧
      Canonical (⟨[⟨1, true, 3, true⟩, ⟨5, false, 8, true⟩], ""⟩ : OrderedIntervalList ℕ).intervals ∧
      Canonical (⟨[⟨2, true, 6, false⟩], ""⟩ : OrderedIntervalList ℕ).intervals ∧
      ∃ C, intersectize ⟨[⟨1, true, 3, true⟩, ⟨5, false, 8, true⟩], ""⟩
          ⟨[⟨2, true, 6, false⟩], ""⟩ = .ok C ∧
        C.name = (⟨[⟨2, true, 6, false⟩], ""⟩ : OrderedIntervalList ℕ).name ∧
        Canonical C.intervals ∧
        ∀ x, (∃ i ∈ C.intervals, i.Contains 1 x) ↔
          (∃ a ∈ (⟨[⟨1, true, 3, true⟩, ⟨5, false, 8, true⟩], ""⟩ :
              OrderedIntervalList ℕ).intervals, a.Contains 1 x) ∧
            ∃ b ∈ (⟨[⟨2, true, 6, false⟩], ""⟩ : OrderedIntervalList ℕ).intervals, b.Contains 1 x :=
  ⟨rfl, by decide, by decide,
    intersectize_exact ⟨[⟨1, true, 3, true⟩, ⟨5, false, 8, true⟩], ""⟩
      ⟨[⟨2, true, 6, false⟩], ""⟩ rfl (by decide) (by decide)⟩

end Mongo
