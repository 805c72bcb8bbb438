import Mongo.Matcher.Expression

/-!
# What `optimize` keeps, and the one rewrite that changes a match

`MatchExpression::optimize` rewrites a tree from the leaves up.  A `$and` or an `$or` absorbs the
children of its own type, a list of one child becomes that child (a `$nor` of one becomes a
`$not`), and an `$in` of exactly one regex or one equality becomes a `$regex` or an equality.

Every rewrite but the last keeps what the tree decides, of documents and of single elements.  The
last keeps it when the equality is not null: `$in` finds an element only when the set's comparison
calls it equal to a member, and it matches a missing element when it holds a null.
`{$eq: null}` matches every element whose canonical type is that of undefined ("jstNULL and
undefined are treated the same").  So `{$in: [null]}`, which does not match undefined, becomes a
predicate that does.

* `listOfOptimize_eval` — the rewrites of a `ListOfMatchExpression`, for both readings.
* `inOptimize_matchesSingleElement` — the rewrites of `$in`, under `EqualityAgrees`.
* `optimize_preserves` — the whole pass, by induction over the tree, for trees whose singleton
  `$in`s hold no null (`inEqualitiesSafe`).
* `optimize_in_null_matches_undefined` — the `$in: [null]` of a field that holds undefined.
-/

namespace Mongo

open MatchExpression

variable {E D L O : Type}

/-! ## Absorbing children -/

theorem absorbedChildren_eq_some {t : ListOfType} {c : MatchExpression E L O}
    {children : List (MatchExpression E L O)} :
    absorbedChildren t c = some children ↔ c = .listOf t children := by
  cases c <;> simp [absorbedChildren]

/-- The children after absorption: the others, and the children of the absorbed ones. -/
theorem mem_absorbChildren {t : ListOfType} {children : List (MatchExpression E L O)}
    {x : MatchExpression E L O} :
    x ∈ absorbChildren t children ↔ (x ∈ children ∧ absorbedChildren t x = none) ∨
      ∃ grandChildren, .listOf t grandChildren ∈ children ∧ x ∈ grandChildren := by
  simp only [absorbChildren, List.mem_append, List.mem_filter, Option.isNone_iff_eq_none,
    List.mem_flatMap]
  refine or_congr (and_congr_right fun _ => by simp) ?_
  constructor
  · rintro ⟨c, hc, hx⟩
    rcases h : absorbedChildren t c with _ | grandChildren
    · simp [h] at hx
    · rw [absorbedChildren_eq_some] at h
      subst h
      exact ⟨grandChildren, hc, by simpa [absorbedChildren] using hx⟩
  · rintro ⟨grandChildren, hc, hx⟩
    exact ⟨_, hc, by simpa [absorbedChildren] using hx⟩

/-- Absorbing the children of the nodes of type `t` keeps the conjunction of a reading that is
itself the conjunction on those nodes. -/
theorem all_absorbChildren {t : ListOfType} (f : MatchExpression E L O → Bool)
    (hf : ∀ children, f (.listOf t children) = (children.map f).all id)
    (children : List (MatchExpression E L O)) :
    ((absorbChildren t children).map f).all id = (children.map f).all id := by
  rw [Bool.eq_iff_iff]
  simp only [List.all_map, List.all_eq_true, Function.comp_apply, id, mem_absorbChildren]
  constructor
  · intro h c hc
    rcases hg : absorbedChildren t c with _ | grandChildren
    · exact h c (Or.inl ⟨hc, hg⟩)
    · rw [absorbedChildren_eq_some] at hg
      subst hg
      rw [hf]
      simp only [List.all_map, List.all_eq_true, Function.comp_apply, id]
      exact fun x hx => h x (Or.inr ⟨grandChildren, hc, hx⟩)
  · rintro h x (⟨hx, -⟩ | ⟨grandChildren, hc, hx⟩)
    · exact h x hx
    · have hall := h _ hc
      rw [hf] at hall
      simp only [List.all_map, List.all_eq_true, Function.comp_apply, id] at hall
      exact hall x hx

/-! ## The rewrites of a list -/

theorem combine_singleton (t : ListOfType) (b : Bool) :
    t.combine [b] = if t = .nor then !b else b := by
  cases t <;> cases b <;> rfl

/-- Absorption keeps what a `$and` or an `$or` decides. -/
theorem combine_absorbChildren {t : ListOfType} (ht : t = .and ∨ t = .or)
    (f : MatchExpression E L O → Bool)
    (hlist : ∀ t children, f (.listOf t children) = t.combine (children.map f))
    (children : List (MatchExpression E L O)) :
    t.combine ((absorbChildren t children).map f) = t.combine (children.map f) := by
  rcases ht with rfl | rfl
  · exact all_absorbChildren f (hlist .and) children
  · have h := all_absorbChildren (t := .or) (fun c => !f c)
      (fun children => by
        simp [hlist, ListOfType.combine, List.all_eq_not_any_not, Function.comp_def]) children
    simp only [ListOfType.combine, List.any_map, List.all_map] at h ⊢
    simpa [List.all_eq_not_any_not, Function.comp_def] using congrArg (!·) h

/-- **The rewrites of a `ListOfMatchExpression` keep what it decides**, for any reading that
combines the children as the node does and negates under `$not`: `matchesBSON` on a document and
`matchesSingleElement` on an element are both such readings. -/
theorem listOfOptimize_eval (f : MatchExpression E L O → Bool)
    (hlist : ∀ t children, f (.listOf t children) = t.combine (children.map f))
    (hnot : ∀ c, f (.not c) = !f c) (t : ListOfType) (children : List (MatchExpression E L O)) :
    f (listOfOptimize t children) = t.combine (children.map f) := by
  have habsorb : t.combine ((if t = .and ∨ t = .or then absorbChildren t children
      else children).map f) = t.combine (children.map f) := by
    split_ifs with ht
    · exact combine_absorbChildren ht f hlist children
    · rfl
  rw [← habsorb, listOfOptimize]
  generalize (if t = .and ∨ t = .or then absorbChildren t children else children) = kept
  rcases kept with _ | ⟨child, _ | ⟨child', rest⟩⟩
  · exact hlist t []
  · simp only [List.map_cons, List.map_nil, combine_singleton]
    split_ifs with hnor
    · exact hnot child
    · rfl
  · exact hlist t _

/-! ## The rewrites of `$in` -/

section In

variable (B : BSONView E D L O)

theorem canonicalizeBSONType_cases (t : BSONType) :
    canonicalizeBSONType t = -1 ∨ canonicalizeBSONType t = 0 ∨ canonicalizeBSONType t = 5 ∨
      10 ≤ canonicalizeBSONType t := by
  cases t <;> simp [canonicalizeBSONType]

theorem canonicalizeBSONType_eq_zero_iff {t : BSONType} :
    canonicalizeBSONType t = 0 ↔ t = .eoo ∨ t = .undefined := by
  cases t <;> simp [canonicalizeBSONType]

theorem canonicalizeBSONType_eq_five_iff {t : BSONType} :
    canonicalizeBSONType t = 5 ↔ t = .jstNULL := by
  cases t <;> simp [canonicalizeBSONType]

/-- The comparison of the abstracted `compareElements` with NaN, as `compareDoubles` makes it:
two elements of one canonical type of which one is NaN compare equal exactly when both are. -/
def NaNCompares : Prop :=
  ∀ l r, B.canonicalType l = B.canonicalType r → (B.isNaN l || B.isNaN r) = true →
    (B.compareElements l r = 0 ↔ (B.isNaN l && B.isNaN r) = true)

/-- An equality for which `$eq` and a `$in` of it agree: not null, and not undefined or missing,
which `setEqualities` refuses and an array cannot hold. -/
def EqualityAgrees (equality : E) : Prop :=
  B.type equality ≠ .jstNULL ∧ B.type equality ≠ .undefined ∧ B.type equality ≠ .eoo

/-- **A `$in` of one equality that is not null is that equality.** -/
theorem comparison_eq_iff_in (hnan : NaNCompares B) {equality : E}
    (hagrees : EqualityAgrees B equality) (e : E) :
    B.comparisonMatchesSingleElement .eq equality e = B.inMatchesSingleElement [equality] [] e := by
  obtain ⟨hnull, hundef, heoo⟩ := hagrees
  have hne0 : B.canonicalType equality ≠ 0 := fun h =>
    (canonicalizeBSONType_eq_zero_iff.mp h).elim heoo hundef
  have hne5 : B.canonicalType equality ≠ 5 := fun h => hnull (canonicalizeBSONType_eq_five_iff.mp h)
  have hnoNull : B.hasNull [equality] = false := by simp [BSONView.hasNull, hnull]
  simp only [BSONView.inMatchesSingleElement, hnoNull, Bool.false_and, Bool.false_or,
    List.any_cons, List.any_nil, Bool.or_false]
  by_cases hcanon : B.canonicalType e = B.canonicalType equality
  · have hwo : B.woCompare e equality = B.compareElements e equality := by
      simp [BSONView.woCompare, hcanon]
    rw [hwo]
    by_cases hNaN : (B.isNaN e || B.isNaN equality) = true
    · have hiff := hnan e equality hcanon hNaN
      simp only [BSONView.comparisonMatchesSingleElement, hcanon, ne_eq, not_true_eq_false,
        if_false, hNaN, if_true]
      rw [Bool.eq_iff_iff, beq_iff_eq, hiff]
    · simp only [BSONView.comparisonMatchesSingleElement, hcanon, ne_eq, not_true_eq_false,
        if_false, hNaN, Bool.false_eq_true]
      rw [Bool.eq_iff_iff, decide_eq_true_iff, beq_iff_eq]
  · have hsum : B.canonicalType e + B.canonicalType equality ≠ 5 := by
      have he := canonicalizeBSONType_cases (B.type e)
      have hq := canonicalizeBSONType_cases (B.type equality)
      simp only [BSONView.canonicalType] at hne0 hne5 ⊢
      omega
    have htype : B.type e ≠ B.type equality := fun h => hcanon (by simp [BSONView.canonicalType, h])
    have hdiff : B.canonicalType e - B.canonicalType equality ≠ 0 := by omega
    have hwo : B.woCompare e equality ≠ 0 := by
      simp only [BSONView.woCompare, ne_eq, htype, not_false_eq_true, true_and]
      rw [if_pos hdiff]
      exact hdiff
    simp [BSONView.comparisonMatchesSingleElement, hcanon, hsum, hwo]

/-- **The rewrites of `$in` keep what it decides of an element**: a `$in` of one regex is the
regex, and a `$in` of one equality that agrees is the equality. -/
theorem inOptimize_matchesSingleElement (hnan : NaNCompares B) (path : String)
    (equalitySet : List E) (regexes : List (String × String))
    (hagrees : ∀ equality, equalitySet = [equality] → regexes = [] → EqualityAgrees B equality)
    (e : E) :
    (inOptimize path equalitySet regexes : MatchExpression E L O).matchesSingleElement B e =
      B.inMatchesSingleElement equalitySet regexes e := by
  match regexes, equalitySet, hagrees with
  | [re], [], _ => simp [inOptimize, matchesSingleElement, BSONView.inMatchesSingleElement,
      BSONView.hasNull]
  | [], [equality], hagrees =>
      simp only [inOptimize, matchesSingleElement]
      exact comparison_eq_iff_in B hnan (hagrees equality rfl rfl) e
  | [], [], _ | [], _ :: _ :: _, _ | [_], _ :: _, _ | _ :: _ :: _, _, _ =>
      simp [inOptimize, matchesSingleElement]

theorem pathInfo_inOptimize (path : String) (equalitySet : List E)
    (regexes : List (String × String)) :
    (inOptimize path equalitySet regexes : MatchExpression E L O).pathInfo = some (path, true) := by
  unfold inOptimize
  split <;> rfl

end In

/-! ## The whole pass -/

mutual

/-- Every `$in` of the tree that `optimize` turns into an equality has an equality for which
`$eq` agrees with it (`EqualityAgrees`). -/
def InEqualitiesAgree (B : BSONView E D L O) : MatchExpression E L O → Prop
  | .listOf _ children => InEqualitiesAgreeChildren B children
  | .not exp => InEqualitiesAgree B exp
  | .inExpr _ equalitySet regexes =>
      ∀ equality, equalitySet = [equality] → regexes = [] → EqualityAgrees B equality
  | .elemMatchObject _ sub => InEqualitiesAgree B sub
  | .elemMatchValue _ subs => InEqualitiesAgreeChildren B subs
  | .comparison .. | .regex .. | .leaf .. | .size .. | .other _ => True

/-- `InEqualitiesAgree` of each child. -/
def InEqualitiesAgreeChildren (B : BSONView E D L O) : List (MatchExpression E L O) → Prop
  | [] => True
  | child :: children => InEqualitiesAgree B child ∧ InEqualitiesAgreeChildren B children

end

section Pass

variable (B : BSONView E D L O)

theorem matchesBSON_listOf (t : ListOfType) (children : List (MatchExpression E L O)) (doc : D) :
    (MatchExpression.listOf t children).matchesBSON B doc =
      t.combine (children.map (matchesBSON B · doc)) := by
  simp [matchesBSON]

theorem matchesSingleElement_listOf (t : ListOfType) (children : List (MatchExpression E L O))
    (x : E) :
    (MatchExpression.listOf t children).matchesSingleElement B x =
      t.combine (children.map (matchesSingleElement B · x)) := by
  simp [matchesSingleElement]

mutual

/-- **`optimize` keeps what a tree decides**, of every document and of every element, when each
`$in` it turns into an equality holds an equality that agrees.  By induction over the tree: each
node's children keep their meaning, and then the node's own rewrite keeps it. -/
theorem optimize_preserves (hnan : NaNCompares B) :
    ∀ e : MatchExpression E L O, InEqualitiesAgree B e →
      (∀ doc, (optimize e).matchesBSON B doc = e.matchesBSON B doc) ∧
        ∀ x, (optimize e).matchesSingleElement B x = e.matchesSingleElement B x
  | .listOf t children, h => by
      have ih := optimizeChildren_preserves hnan children h
      refine ⟨fun doc => ?_, fun x => ?_⟩
      · rw [optimize, optimizeChildren_eq, listOfOptimize_eval (matchesBSON B · doc)
          (matchesBSON_listOf B · · doc) (fun _ => rfl), List.map_map, matchesBSON_listOf]
        exact congrArg t.combine (ih.1 doc)
      · rw [optimize, optimizeChildren_eq, listOfOptimize_eval (matchesSingleElement B · x)
          (matchesSingleElement_listOf B · · x) (fun _ => rfl), List.map_map,
          matchesSingleElement_listOf]
        exact congrArg t.combine (ih.2 x)
  | .not exp, h => by
      have ih := optimize_preserves hnan exp h
      exact ⟨fun doc => by simp [optimize, matchesBSON, ih.1 doc],
        fun x => by simp [optimize, matchesSingleElement, ih.2 x]⟩
  | .inExpr path equalitySet regexes, h => by
      have helem := inOptimize_matchesSingleElement B hnan path equalitySet regexes h
      refine ⟨fun doc => ?_, fun x => ?_⟩
      · rw [optimize, matchesBSON_pathElements B (pathInfo_inOptimize path equalitySet regexes),
          funext helem]
        rfl
      · rw [optimize, helem]
        rfl
  | .elemMatchObject path sub, h => by
      have ih := optimize_preserves hnan sub h
      have hsub : matchesBSON B (optimize sub) = matchesBSON B sub := funext ih.1
      exact ⟨fun doc => by simp [optimize, matchesBSON, hsub],
        fun x => by simp [optimize, matchesSingleElement, hsub]⟩
  | .elemMatchValue path subs, h => by
      have ih := optimizeChildren_preserves hnan subs h
      have hsubs : (fun inner => ((subs.map optimize).map (matchesSingleElement B · inner)).all id) =
          fun inner => (subs.map (matchesSingleElement B · inner)).all id :=
        funext fun inner => by rw [List.map_map, ← ih.2 inner]; rfl
      refine ⟨fun doc => ?_, fun x => ?_⟩
      · simp only [optimize, optimizeChildren_eq, matchesBSON, matchesSingleElementChildren_eq]
        rw [hsubs]
      · simp only [optimize, optimizeChildren_eq, matchesSingleElement,
          matchesSingleElementChildren_eq]
        rw [hsubs]
  | .comparison .., _ | .regex .., _ | .leaf .., _ | .size .., _ | .other _, _ =>
      ⟨fun _ => rfl, fun _ => rfl⟩

/-- `optimize_preserves` for each child. -/
theorem optimizeChildren_preserves (hnan : NaNCompares B) :
    ∀ children : List (MatchExpression E L O), InEqualitiesAgreeChildren B children →
      (∀ doc, children.map (fun c => (optimize c).matchesBSON B doc) =
        children.map (matchesBSON B · doc)) ∧
      ∀ x, children.map (fun c => (optimize c).matchesSingleElement B x) =
        children.map (matchesSingleElement B · x)
  | [], _ => ⟨fun _ => rfl, fun _ => rfl⟩
  | child :: children, h => by
      have ihc := optimize_preserves hnan child h.1
      have ihs := optimizeChildren_preserves hnan children h.2
      refine ⟨fun doc => ?_, fun x => ?_⟩
      · simp only [List.map_cons, ihc.1 doc, ihs.1 doc]
      · simp only [List.map_cons, ihc.2 x, ihs.2 x]

end

end Pass

/-! ## `$in: [null]` against undefined -/

/-- **`{$in: [null]}` and `{$eq: null}` differ on undefined**, in any view: no member of the set
has the canonical type of undefined, which the comparison treats as null's. -/
theorem in_null_ne_eq_null_of_undefined (B : BSONView E D L O) {null undef : E}
    (hnull : B.type null = .jstNULL) (hundef : B.type undef = .undefined) :
    B.inMatchesSingleElement [null] [] undef = false ∧
      B.comparisonMatchesSingleElement .eq null undef = true := by
  constructor
  · simp [BSONView.inMatchesSingleElement, BSONView.hasNull, BSONView.woCompare,
      BSONView.canonicalType, hnull, hundef, canonicalizeBSONType]
  · simp [BSONView.comparisonMatchesSingleElement, BSONView.canonicalType, hnull, hundef,
      canonicalizeBSONType]

/-- Documents of top-level fields, each element a type and a number.  For a field that holds no
array, `ElementPath` yields its element, and for a missing field the `EOO` element. -/
def topLevelView : BSONView (BSONType × ℤ) (List (String × (BSONType × ℤ))) Empty Empty where
  type e := e.1
  compareElements l r := l.2 - r.2
  isNaN _ := false
  embeddedObject _ := []
  elements doc := doc.map (·.2)
  pathElements doc path _ := [(doc.lookup path).getD (.eoo, 0)]
  regexMatches _ _ _ := false
  leafMatchesSingleElement l := l.elim
  otherMatches o := o.elim
  otherMatchesSingleElement o := o.elim

/-- `{x: {$in: [null]}}`. -/
def inNullQuery : MatchExpression (BSONType × ℤ) Empty Empty := .inExpr "x" [(.jstNULL, 0)] []

/-- `{x: undefined}`. -/
def undefinedDocument : List (String × (BSONType × ℤ)) := [("x", (.undefined, 0))]

/-- **`optimize` makes `{x: {$in: [null]}}` match `{x: undefined}`.**  The `$in` of the one
equality null becomes `{x: {$eq: null}}`, which matches the undefined element the `$in` does
not. -/
theorem optimize_in_null_matches_undefined :
    optimize inNullQuery = .comparison .eq "x" (.jstNULL, 0) ∧
      inNullQuery.matchesBSON topLevelView undefinedDocument = false ∧
      (optimize inNullQuery).matchesBSON topLevelView undefinedDocument = true ∧
      inNullQuery.matchesSingleElement topLevelView (.undefined, 0) = false ∧
      (optimize inNullQuery).matchesSingleElement topLevelView (.undefined, 0) = true := by
  refine ⟨rfl, ?_, ?_, ?_, ?_⟩ <;> decide

end Mongo
