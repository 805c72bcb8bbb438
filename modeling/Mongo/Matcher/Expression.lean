import Mongo.Bson.Validate

/-!
# Match expressions

A query predicate is a tree of `MatchExpression`s (`db/matcher/expression*.h`): the logical nodes
`$and`, `$or`, `$nor`, `$_internalSchemaXor` (the `ListOfMatchExpression`s) and `$not`, the
leaves that test the elements at a path, and the array matchers `$elemMatch` and `$size`.  A node
decides a document (`matchesBSON`) and, below `$elemMatch` and `$not`, a single element
(`matchesSingleElement`).

What the tree reads of BSON is a `BSONView`: the type of an element, the comparison of two
elements of one canonical type under the collator, the elements of an object, the elements that
`ElementPath` yields for a path, and the PCRE match of a regex.  These are taken as given.  The
rules the matcher applies on top of them are modelled: the canonical types, the special cases of
`ComparisonMatchExpression` for null, undefined, `MinKey`, `MaxKey` and NaN, and the lookup of
`InMatchExpression`.  The leaves other than the comparisons, `$in` and `$regex` share one
constructor over a type `L` of their own, and the expressions of category `kOther` one over `O`.

* `matchesBSON`, `matchesSingleElement` — `MatchExpression::matchesBSON` and
  `matchesSingleElement`; `matchesBSON_pathElements` says that a path expression matches a
  document by one of the elements at its path (`PathMatchExpression::matches`).
* `optimize` — `MatchExpression::optimize`: each node optimizes its children, then rewrites
  itself (`listOfOptimize`, `inOptimize`).
-/

namespace Mongo

/-- `canonicalizeBSONType` (`bson/bsontypes.h`): the types that compare as one class. -/
def canonicalizeBSONType : BSONType → ℤ
  | .minKey => -1
  | .maxKey => 127
  | .eoo | .undefined => 0
  | .jstNULL => 5
  | .numberDecimal | .numberDouble | .numberInt | .numberLong => 10
  | .string | .symbol => 15
  | .object => 20
  | .array => 25
  | .binData => 30
  | .jstOID => 35
  | .bool => 40
  | .date => 45
  | .bsonTimestamp => 47
  | .regEx => 50
  | .dbRef => 55
  | .code => 60
  | .codeWScope => 65

/-- What the matcher reads of BSON elements `E` and objects `D`, and how the leaves of types `L`
and the expressions of types `O` decide. -/
structure BSONView (E D L O : Type) where
  /-- `BSONElement::type()`: `EOO` for the element of a missing field. -/
  type : E → BSONType
  /-- `BSONElement::compareElements(l, r, rules, collator)`, which the matcher calls on two
  elements of one canonical type.  Its callers pass different `rules`, which differ in
  `kConsiderFieldName` only; it reads that flag below the top level only, where it sets it. -/
  compareElements : E → E → ℤ
  /-- `std::isnan(e.numberDouble())`. -/
  isNaN : E → Bool
  /-- `BSONElement::embeddedObject()` of an object or an array. -/
  embeddedObject : E → D
  /-- The elements of an object, in order (`BSONObjIterator`). -/
  elements : D → List E
  /-- The elements `ElementPath` yields for a path, expanding an array at its end or not
  (`setTraverseLeafArray`). -/
  pathElements : D → String → Bool → List E
  /-- `RegexMatchExpression::matchesSingleElement` for a pattern and its flags. -/
  regexMatches : String → String → E → Bool
  /-- `matchesSingleElement` of the other leaves. -/
  leafMatchesSingleElement : L → E → Bool
  /-- `matches` of the expressions of category `kOther`. -/
  otherMatches : O → D → Bool
  /-- `matchesSingleElement` of the expressions of category `kOther`. -/
  otherMatchesSingleElement : O → E → Bool

/-- The match types of the `ListOfMatchExpression`s. -/
inductive ListOfType
  | and
  | or
  | nor
  | internalSchemaXor
  deriving DecidableEq, Repr

/-- The match types of `ComparisonMatchExpression`. -/
inductive ComparisonType
  | eq
  | lte
  | lt
  | gt
  | gte
  deriving DecidableEq, Repr

/-- A match expression. -/
inductive MatchExpression (E L O : Type)
  /-- `AndMatchExpression`, `OrMatchExpression`, `NorMatchExpression` and
  `InternalSchemaXorMatchExpression`, over `_expressions`. -/
  | listOf (matchType : ListOfType) (children : List (MatchExpression E L O))
  /-- `NotMatchExpression`. -/
  | not (exp : MatchExpression E L O)
  /-- `ComparisonMatchExpression`: the elements at `path` against `_rhs`. -/
  | comparison (matchType : ComparisonType) (path : String) (rhs : E)
  /-- `InMatchExpression`: `_equalitySet`, one element for each class of equal equalities, and
  `_regexes`, each a pattern and its flags. -/
  | inExpr (path : String) (equalitySet : List E) (regexes : List (String × String))
  /-- `RegexMatchExpression`. -/
  | regex (path : String) (regex flags : String)
  /-- Any other `LeafMatchExpression` (`$exists`, `$type`, `$mod`, the bit tests, ...). -/
  | leaf (path : String) (l : L)
  /-- `ElemMatchObjectMatchExpression`. -/
  | elemMatchObject (path : String) (sub : MatchExpression E L O)
  /-- `ElemMatchValueMatchExpression`. -/
  | elemMatchValue (path : String) (subs : List (MatchExpression E L O))
  /-- `SizeMatchExpression`. -/
  | size (path : String) (size : ℤ)
  /-- An expression of category `kOther` (`$where`, `$expr`, `$alwaysFalse`, the schema
  expressions, ...). -/
  | other (o : O)

/-- The loop of `InternalSchemaXorMatchExpression::matches`: `found` once a child matched, and
`false` as soon as a second one does. -/
def xorLoop : Bool → List Bool → Bool
  | found, [] => found
  | found, b :: bs => if b then (if found then false else xorLoop true bs) else xorLoop found bs

/-- How a `ListOfMatchExpression` decides from what its children decide. -/
def ListOfType.combine : ListOfType → List Bool → Bool
  | .and, bs => bs.all id
  | .or, bs => bs.any id
  | .nor, bs => !bs.any id
  | .internalSchemaXor, bs => xorLoop false bs

variable {E D L O : Type}

namespace BSONView

variable (B : BSONView E D L O)

/-- `BSONElement::canonicalType()`. -/
def canonicalType (e : E) : ℤ := canonicalizeBSONType (B.type e)

/-- `BSONElement::isABSONObj()`: an object or an array. -/
def isABSONObj (e : E) : Bool := B.type e == .object || B.type e == .array

/-- `ComparisonMatchExpression::matchesSingleElement(e)`, against `rhs`. -/
def comparisonMatchesSingleElement (matchType : ComparisonType) (rhs e : E) : Bool :=
  if B.canonicalType e ≠ B.canonicalType rhs then
    -- "jstNULL and undefined are treated the same"
    if B.canonicalType e + B.canonicalType rhs = 5 then
      matchType == .eq || matchType == .lte || matchType == .gte
    else if B.type rhs = .maxKey ∨ B.type rhs = .minKey then matchType != .eq
    else false
  else if B.isNaN e || B.isNaN rhs then
    -- "NaN is equal to NaN but otherwise always compares to false"
    let bothNaN := B.isNaN e && B.isNaN rhs
    match matchType with
    | .lt | .gt => false
    | .lte | .eq | .gte => bothNaN
  else
    let x := B.compareElements e rhs
    match matchType with
    | .lt => decide (x < 0)
    | .lte => decide (x ≤ 0)
    | .eq => decide (x = 0)
    | .gt => decide (0 < x)
    | .gte => decide (0 ≤ x)

/-- `BSONElement::woCompare(elem, rules, collator)`, the comparison of the `$in` set: the
canonical types first when the types differ, then `compareElements`. -/
def woCompare (l r : E) : ℤ :=
  if B.type l ≠ B.type r ∧ B.canonicalType l - B.canonicalType r ≠ 0 then
    B.canonicalType l - B.canonicalType r
  else B.compareElements l r

/-- `_hasNull`: `setEqualities` met a null. -/
def hasNull (equalitySet : List E) : Bool := equalitySet.any fun v => B.type v == .jstNULL

/-- `InMatchExpression::matchesSingleElement(e)`: a missing element when `_hasNull`, an element
that `_equalitySet.find` finds (one the set's comparator calls equal), or a match of one of
`_regexes`. -/
def inMatchesSingleElement (equalitySet : List E) (regexes : List (String × String)) (e : E) :
    Bool :=
  (B.hasNull equalitySet && B.type e == .eoo) || equalitySet.any (fun v => B.woCompare e v == 0) ||
    regexes.any fun regex => B.regexMatches regex.1 regex.2 e

/-- `ArrayMatchingMatchExpression::matchesSingleElement`: an array, whose embedded object
`matchesArray` accepts. -/
def arrayMatchesSingleElement (matchesArray : D → Bool) (e : E) : Bool :=
  B.type e == .array && matchesArray (B.embeddedObject e)

/-- `ElemMatchObjectMatchExpression::matchesArray`: an element that is an object or an array,
whose embedded object the sub-expression matches. -/
def elemMatchObjectMatchesArray (subMatches : D → Bool) (anArray : D) : Bool :=
  (B.elements anArray).any fun inner => B.isABSONObj inner && subMatches (B.embeddedObject inner)

/-- `ElemMatchValueMatchExpression::matchesArray`: an element that every sub-expression matches
(`_arrayElementMatchesAll`). -/
def elemMatchValueMatchesArray (matchesAll : E → Bool) (anArray : D) : Bool :=
  (B.elements anArray).any matchesAll

/-- `SizeMatchExpression::matchesArray`. -/
def sizeMatchesArray (size : ℤ) (anArray : D) : Bool :=
  if size < 0 then false else ((B.elements anArray).length : ℤ) == size

end BSONView

namespace MatchExpression

section Semantics

mutual

/-- `MatchExpression::matchesBSON(doc)`, which is `matches` on the document.  A path expression
matches by one of the elements `ElementPath` yields at its path; a leaf expands an array at the
end of the path, an array matcher does not. -/
def matchesBSON (B : BSONView E D L O) : MatchExpression E L O → D → Bool
  | .listOf matchType children, doc => matchType.combine (matchesChildren B children doc)
  | .not exp, doc => !matchesBSON B exp doc
  | .comparison matchType path rhs, doc =>
      (B.pathElements doc path true).any (B.comparisonMatchesSingleElement matchType rhs)
  | .inExpr path equalitySet regexes, doc =>
      (B.pathElements doc path true).any (B.inMatchesSingleElement equalitySet regexes)
  | .regex path re flags, doc => (B.pathElements doc path true).any (B.regexMatches re flags)
  | .leaf path l, doc => (B.pathElements doc path true).any (B.leafMatchesSingleElement l)
  | .elemMatchObject path sub, doc => (B.pathElements doc path false).any
      (B.arrayMatchesSingleElement (B.elemMatchObjectMatchesArray (matchesBSON B sub)))
  | .elemMatchValue path subs, doc => (B.pathElements doc path false).any
      (B.arrayMatchesSingleElement (B.elemMatchValueMatchesArray fun inner =>
        (matchesSingleElementChildren B subs inner).all id))
  | .size path n, doc =>
      (B.pathElements doc path false).any (B.arrayMatchesSingleElement (B.sizeMatchesArray n))
  | .other o, doc => B.otherMatches o doc

/-- What each child decides of a document. -/
def matchesChildren (B : BSONView E D L O) : List (MatchExpression E L O) → D → List Bool
  | [], _ => []
  | child :: children, doc => matchesBSON B child doc :: matchesChildren B children doc

/-- `MatchExpression::matchesSingleElement(e)`. -/
def matchesSingleElement (B : BSONView E D L O) : MatchExpression E L O → E → Bool
  | .listOf matchType children, e =>
      matchType.combine (matchesSingleElementChildren B children e)
  | .not exp, e => !matchesSingleElement B exp e
  | .comparison matchType _ rhs, e => B.comparisonMatchesSingleElement matchType rhs e
  | .inExpr _ equalitySet regexes, e => B.inMatchesSingleElement equalitySet regexes e
  | .regex _ re flags, e => B.regexMatches re flags e
  | .leaf _ l, e => B.leafMatchesSingleElement l e
  | .elemMatchObject _ sub, e =>
      B.arrayMatchesSingleElement (B.elemMatchObjectMatchesArray (matchesBSON B sub)) e
  | .elemMatchValue _ subs, e =>
      B.arrayMatchesSingleElement (B.elemMatchValueMatchesArray fun inner =>
        (matchesSingleElementChildren B subs inner).all id) e
  | .size _ n, e => B.arrayMatchesSingleElement (B.sizeMatchesArray n) e
  | .other o, e => B.otherMatchesSingleElement o e

/-- What each child decides of an element. -/
def matchesSingleElementChildren (B : BSONView E D L O) : List (MatchExpression E L O) → E →
    List Bool
  | [], _ => []
  | child :: children, e =>
      matchesSingleElement B child e :: matchesSingleElementChildren B children e

end

variable (B : BSONView E D L O)

@[simp] theorem matchesChildren_eq (children : List (MatchExpression E L O)) (doc : D) :
    matchesChildren B children doc = children.map (matchesBSON B · doc) := by
  induction children with
  | nil => rfl
  | cons child children ih => simp [matchesChildren, ih]

@[simp] theorem matchesSingleElementChildren_eq (children : List (MatchExpression E L O)) (e : E) :
    matchesSingleElementChildren B children e = children.map (matchesSingleElement B · e) := by
  induction children with
  | nil => rfl
  | cons child children ih => simp [matchesSingleElementChildren, ih]

end Semantics

/-! ## `optimize` -/

/-- The path of a path expression, and whether `ElementPath` expands an array at its end for
it (`shouldExpandLeafArray`); `none` for the others. -/
def pathInfo : MatchExpression E L O → Option (String × Bool)
  | .comparison _ path _ | .inExpr path _ _ | .regex path _ _ | .leaf path _ => some (path, true)
  | .elemMatchObject path _ | .elemMatchValue path _ | .size path _ => some (path, false)
  | .listOf _ _ | .not _ | .other _ => none

/-- **`PathMatchExpression::matches`**: a path expression matches a document by one of the
elements at its path. -/
theorem matchesBSON_pathElements (B : BSONView E D L O) {e : MatchExpression E L O}
    {path : String} {expand : Bool} (h : e.pathInfo = some (path, expand)) (doc : D) :
    e.matchesBSON B doc = (B.pathElements doc path expand).any (e.matchesSingleElement B) := by
  cases e <;> simp only [pathInfo, reduceCtorEq, Option.some.injEq, Prod.mk.injEq] at h <;>
    obtain ⟨rfl, rfl⟩ := h <;> simp [matchesBSON, matchesSingleElement]

/-- The children of `e` when it is a `ListOfMatchExpression` of the type `matchType`. -/
def absorbedChildren (matchType : ListOfType) :
    MatchExpression E L O → Option (List (MatchExpression E L O))
  | .listOf t children => if t = matchType then some children else none
  | _ => none

/-- The children after "an AND absorbs the children of any ANDs among its children (and
likewise for any OR with OR children)": the others in their order, then the absorbed ones. -/
def absorbChildren (matchType : ListOfType) (children : List (MatchExpression E L O)) :
    List (MatchExpression E L O) :=
  children.filter (fun child => (absorbedChildren matchType child).isNone) ++
    children.flatMap fun child => (absorbedChildren matchType child).getD []

/-- `ListOfMatchExpression::getOptimizer`, once the children are optimized. -/
def listOfOptimize (matchType : ListOfType) (children : List (MatchExpression E L O)) :
    MatchExpression E L O :=
  let children := if matchType = .and ∨ matchType = .or then absorbChildren matchType children
    else children
  match children with
  -- "Simplify AND/OR/XOR with exactly one operand", and "NOR of exactly one operand to NOT"
  | [child] => if matchType = .nor then .not child else child
  | children => .listOf matchType children

/-- `InMatchExpression::getOptimizer`. -/
def inOptimize (path : String) (equalitySet : List E) (regexes : List (String × String)) :
    MatchExpression E L O :=
  match regexes, equalitySet with
  -- "Simplify IN of exactly one regex to be a regex match"
  | [re], [] => .regex path re.1 re.2
  -- "Simplify IN of exactly one equality to be an EqualityMatchExpression"
  | [], [equality] => .comparison .eq path equality
  | _, _ => .inExpr path equalitySet regexes

mutual

/-- `MatchExpression::optimize(expression)`: the optimizer of each node optimizes its children
first; the leaves other than `$in` keep the default optimizer, which changes nothing. -/
def optimize : MatchExpression E L O → MatchExpression E L O
  | .listOf matchType children => listOfOptimize matchType (optimizeChildren children)
  | .not exp => .not (optimize exp)
  | .inExpr path equalitySet regexes => inOptimize path equalitySet regexes
  | .elemMatchObject path sub => .elemMatchObject path (optimize sub)
  | .elemMatchValue path subs => .elemMatchValue path (optimizeChildren subs)
  | .comparison matchType path rhs => .comparison matchType path rhs
  | .regex path re flags => .regex path re flags
  | .leaf path l => .leaf path l
  | .size path n => .size path n
  | .other o => .other o

/-- Each child optimized, in place. -/
def optimizeChildren : List (MatchExpression E L O) → List (MatchExpression E L O)
  | [] => []
  | child :: children => optimize child :: optimizeChildren children

end

@[simp] theorem optimizeChildren_eq (children : List (MatchExpression E L O)) :
    optimizeChildren children = children.map optimize := by
  induction children with
  | nil => rfl
  | cons child children ih => simp [optimizeChildren, ih]

end MatchExpression

end Mongo
