import Mongo.Query.IntervalSetSpec

/-!
# Complementing an interval list is exact

`OrderedIntervalList::complement` scans the values from `MinKey` to `MaxKey`, keeping in
`curBoundary` and `curInclusive` the end of the last interval seen.  On tagged ends that pair is
one position, `upper curBoundary curInclusive`, and the interval the loop builds from it to the
start of the next interval, with both inclusions flipped, runs exactly from that position to the
next interval's tagged start (`lower_not`, `upper_not`).  The loop builds it exactly when that
stretch is not empty (`gapTest_iff`, `finalTest_iff`).

`ComplementResult p L R` is what the loop returns from the position `p` on, for the intervals
`L` still to visit: separated intervals, all starting at or after `p`, holding exactly the values
past `p` that `L` does not hold.  The run lemma `complementFrom_spec` proves it by induction on
`L`, one gap per interval; from `MinKey`, not included, every value is past the start
(`upper_bot_lt_point`), which gives `complement_spec` and then the double complement.
-/

namespace Mongo

open TaggedBound Mongo.Interval

variable {V : Type} [LinearOrder V]

/-! ## Flipped ends on tagged positions -/

section Tags

variable {b s : V} {bi si : Bool}

omit [LinearOrder V] in
/-- A start at `b` with the inclusion flipped sits where the end at `b` sits. -/
@[simp] theorem lower_not : lower b (!bi) = upper b bi := by
  cases bi <;> rfl

omit [LinearOrder V] in
/-- An end at `s` with the inclusion flipped sits where the start at `s` sits. -/
@[simp] theorem upper_not : upper s (!si) = lower s si := by
  cases si <;> rfl

/-- The test before each gap: a new interval unless the last end and the next start meet. -/
theorem gapTest_iff (h : upper b bi ≤ lower s si) :
    (woCompareSign s b != 0 || (!bi && !si)) = true ↔ upper b bi < lower s si := by
  rw [upper_lt_lower]
  rcases eq_or_ne s b with rfl | hne
  · have hzero : woCompareSign s s = 0 := woCompareSign_eq_zero.mpr rfl
    cases bi <;> cases si <;> simp [hzero]
  · have hlt : b < s := by
      rw [upper, lower, Prod.Lex.toLex_le_toLex] at h
      rcases h with hlt | ⟨heq, -⟩
      · exact hlt
      · exact absurd heq.symm hne
    simp [hne, hlt]

variable [BoundedOrder V]

/-- The test before the final interval: a new interval unless the last end is `MaxKey`,
included. -/
theorem finalTest_iff :
    (woCompareSign (⊤ : V) b != 0 || !bi) = true ↔ upper b bi < upper (⊤ : V) true := by
  rw [upper, upper, Prod.Lex.toLex_lt_toLex]
  rcases eq_or_ne b ⊤ with rfl | hne
  · cases bi <;> simp
  · have hzero : woCompareSign (⊤ : V) b ≠ 0 := fun h => hne (woCompareSign_eq_zero.mp h).symm
    simp [hzero, lt_top_iff_ne_top.mpr hne]

theorem point_lt_upper_top (x : V) : point x < upper (⊤ : V) true :=
  point_lt_upper.mpr ((le_top : x ≤ ⊤).lt_or_eq.imp id fun h => ⟨h, rfl⟩)

/-- `MinKey`, not included, sits below every value. -/
theorem upper_bot_lt_point (x : V) : upper (⊥ : V) false < point x := by
  rw [← lower_not]
  exact lower_lt_point.mpr ((bot_le : ⊥ ≤ x).lt_or_eq.imp id fun h => ⟨h.symm, rfl⟩)

theorem upper_bot_le_lower (s : V) (si : Bool) : upper (⊥ : V) false ≤ lower s si := by
  rw [← lower_not, lower_le_lower]
  rcases (bot_le : ⊥ ≤ s).lt_or_eq with h | h
  · exact Or.inl h
  · exact Or.inr ⟨h, fun _ => rfl⟩

end Tags

/-! ## The loop -/

/-- What the loop returns from the position `p` on, for the intervals `L` still to visit. -/
structure ComplementResult (p : V ×ₗ ℕ) (L R : List (Interval V)) : Prop where
  separated : Separated R
  lo_ge : ∀ r ∈ R, p ≤ r.lo
  covers : ∀ x, (∃ r ∈ R, r.Contains 1 x) ↔ p < point x ∧ ¬ ∃ i ∈ L, i.Contains 1 x

theorem Separated.append {G R : List (Interval V)} (hG : Separated G) (hR : Separated R)
    (hGR : ∀ g ∈ G, ∀ r ∈ R, g.hi ≤ r.lo) : Separated (G ++ R) :=
  ⟨fun i hi => (List.mem_append.mp hi).elim (hG.1 i) (hR.1 i),
    List.pairwise_append.mpr ⟨hG.2, hR.2, hGR⟩⟩

/-- A list of at most one interval running from `p` to `q`, which holds the values between
them. -/
structure GapFrom (p q : V ×ₗ ℕ) (G : List (Interval V)) : Prop where
  separated : Separated G
  lo_eq : ∀ g ∈ G, g.lo = p
  hi_eq : ∀ g ∈ G, g.hi = q
  covers : ∀ x, (∃ g ∈ G, g.Contains 1 x) ↔ p < point x ∧ point x < q

/-- The gap is built exactly when the stretch from `p` to `q` is not empty, and then runs from
`p` to `q`. -/
theorem gapFrom_ite {p q : V ×ₗ ℕ} (hpq : p ≤ q) (g : Interval V) (hlo : g.lo = p)
    (hhi : g.hi = q) (c : Bool) (hc : c = true ↔ p < q) :
    GapFrom p q (if c = true then [g] else []) := by
  by_cases hlt : p < q
  · rw [if_pos (hc.mpr hlt)]
    refine ⟨⟨fun i hi => ?_, List.pairwise_singleton _ _⟩, by simp [hlo], by simp [hhi],
      fun x => ?_⟩
    · rw [List.mem_singleton.mp hi, hlo, hhi]
      exact hlt
    · simp [contains_one_iff, hlo, hhi]
  · rw [if_neg (mt hc.mp hlt)]
    have hpq' : p = q := le_antisymm hpq (le_of_not_gt fun h => hlt h)
    refine ⟨Separated.nil, by simp, by simp, fun x => ?_⟩
    simp only [List.not_mem_nil, false_and, exists_false, false_iff, not_and, not_lt]
    intro hpx
    exact (hpq' ▸ hpx).le

/-- **One interval of the loop.**  The gap before `i`, then what the loop returns from the end
of `i` on. -/
theorem ComplementResult.cons {p : V ×ₗ ℕ} {i : Interval V} {L G R : List (Interval V)}
    (hpi : p ≤ i.lo) (hi : i.lo < i.hi) (hL : Separated (i :: L)) (hG : GapFrom p i.lo G)
    (hR : ComplementResult i.hi L R) : ComplementResult p (i :: L) (G ++ R) where
  separated := hG.separated.append hR.separated fun g hg r hr => by
    rw [hG.hi_eq g hg]
    exact hi.le.trans (hR.lo_ge r hr)
  lo_ge := fun r hr => by
    rcases List.mem_append.mp hr with hr | hr
    · exact (hG.lo_eq r hr).ge
    · exact hpi.trans (hi.le.trans (hR.lo_ge r hr))
  covers := fun x => by
    have hsplit : (∃ r ∈ G ++ R, r.Contains 1 x) ↔
        (∃ g ∈ G, g.Contains 1 x) ∨ ∃ r ∈ R, r.Contains 1 x := by
      simp only [List.mem_append, or_and_right, exists_or]
    rw [hsplit, hG.covers x, hR.covers x]
    have hne_lo : point x ≠ i.lo := point_ne_lower
    have hne_hi : point x ≠ i.hi := point_ne_upper
    constructor
    · rintro (⟨hpx, hxi⟩ | ⟨hix, hxL⟩)
      · exact ⟨hpx, hL.not_contains_of_lt_lo hxi⟩
      · refine ⟨by order, ?_⟩
        rintro ⟨j, hj, hxj⟩
        rcases List.mem_cons.mp hj with rfl | hj
        · exact absurd (contains_one_iff.mp hxj).2 (lt_asymm hix)
        · exact hxL ⟨j, hj, hxj⟩
    · rintro ⟨hpx, hxL⟩
      rcases lt_or_gt_of_ne hne_lo with hlo | hlo
      · exact Or.inl ⟨hpx, hlo⟩
      · have hhi : i.hi < point x := by
          refine lt_of_le_of_ne (le_of_not_gt fun hlt => hxL ?_) hne_hi.symm
          exact ⟨i, List.mem_cons_self .., contains_one_iff.mpr ⟨hlo, hlt⟩⟩
        exact Or.inr ⟨hhi, fun ⟨j, hj, hxj⟩ => hxL ⟨j, List.mem_cons_of_mem i hj, hxj⟩⟩

variable [BoundedOrder V]

/-- The final interval, from the last end to `MaxKey`. -/
theorem complementResult_nil (b : V) (bi : Bool) :
    ComplementResult (upper b bi) [] (OrderedIntervalList.complementFrom b bi []) := by
  have hle : upper b bi ≤ upper (⊤ : V) true := by
    rw [upper_le_upper]
    rcases (le_top : b ≤ ⊤).lt_or_eq with h | h
    · exact Or.inl h
    · exact Or.inr ⟨h, fun _ => rfl⟩
  have hgap := gapFrom_ite hle ⟨b, !bi, ⊤, true⟩ lower_not rfl _ finalTest_iff
  rw [OrderedIntervalList.complementFrom]
  refine ⟨hgap.separated, fun r hr => (hgap.lo_eq r hr).ge, fun x => ?_⟩
  rw [hgap.covers x]
  simp [point_lt_upper_top x]

/-- **The run lemma.**  From a position at or before every interval still to visit, the loop
returns what lies past it and in none of them. -/
theorem complementFrom_spec : ∀ (L : List (Interval V)) (b : V) (bi : Bool), Separated L →
    (∀ i ∈ L, upper b bi ≤ i.lo) →
      ComplementResult (upper b bi) L (OrderedIntervalList.complementFrom b bi L)
  | [], b, bi, _, _ => complementResult_nil b bi
  | i :: L, b, bi, hL, hp => by
      have hpi := hp i (List.mem_cons_self ..)
      obtain ⟨hi, hiL, hL'⟩ := Separated.cons_iff.mp hL
      have hR := complementFrom_spec L i.end_ i.endInclusive hL' hiL
      have hG := gapFrom_ite hpi ⟨b, !bi, i.start, !i.startInclusive⟩ lower_not upper_not _
        (gapTest_iff hpi)
      simp only [OrderedIntervalList.complementFrom]
      exact hR.cons hpi hi hL hG

/-- The complement of a canonical list is canonical and holds exactly the values the list does
not hold. -/
theorem complement_spec (L : OrderedIntervalList V) (hL : Canonical L.intervals) :
    Canonical L.complement.intervals ∧
      ∀ x, (∃ i ∈ L.complement.intervals, i.Contains 1 x) ↔ ¬ ∃ i ∈ L.intervals, i.Contains 1 x := by
  have hres := complementFrom_spec L.intervals ⊥ false (canonical_iff_separated.mp hL)
    fun i _ => upper_bot_le_lower _ _
  refine ⟨canonical_iff_separated.mpr hres.separated, fun x => ?_⟩
  exact (hres.covers x).trans (by simp [upper_bot_lt_point x])

/-- **Complement is exact.**  For every canonical interval list between `MinKey` and `MaxKey`,
`complement()` gives a canonical list holding exactly the values the list does not hold, so
complementing twice gives back the values of the list. -/
theorem complement_exact (L : OrderedIntervalList V) (hL : Canonical L.intervals) :
    Canonical L.complement.intervals ∧
      (∀ x, (∃ i ∈ L.complement.intervals, i.Contains 1 x) ↔
        ¬ ∃ i ∈ L.intervals, i.Contains 1 x) ∧
      ∀ x, (∃ i ∈ L.complement.complement.intervals, i.Contains 1 x) ↔
        ∃ i ∈ L.intervals, i.Contains 1 x := by
  obtain ⟨hC, hcov⟩ := complement_spec L hL
  obtain ⟨-, hcov'⟩ := complement_spec L.complement hC
  refine ⟨hC, hcov, fun x => ?_⟩
  rw [hcov' x, hcov x, not_not]

/-- The booleans but `false`, from `MinKey` to `MaxKey`: the complement is `(false, true]`. -/
theorem complement_exact_false :
    Canonical (⟨[⟨false, true, false, true⟩], ""⟩ : OrderedIntervalList Bool).intervals ∧
      Canonical (⟨[⟨false, true, false, true⟩], ""⟩ : OrderedIntervalList Bool).complement.intervals ∧
      (∀ x, (∃ i ∈ (⟨[⟨false, true, false, true⟩], ""⟩ :
            OrderedIntervalList Bool).complement.intervals, i.Contains 1 x) ↔
        ¬ ∃ i ∈ (⟨[⟨false, true, false, true⟩], ""⟩ : OrderedIntervalList Bool).intervals,
          i.Contains 1 x) ∧
      ∀ x, (∃ i ∈ (⟨[⟨false, true, false, true⟩], ""⟩ :
            OrderedIntervalList Bool).complement.complement.intervals, i.Contains 1 x) ↔
        ∃ i ∈ (⟨[⟨false, true, false, true⟩], ""⟩ : OrderedIntervalList Bool).intervals,
          i.Contains 1 x :=
  ⟨by decide, complement_exact ⟨[⟨false, true, false, true⟩], ""⟩ (by decide)⟩

end Mongo
