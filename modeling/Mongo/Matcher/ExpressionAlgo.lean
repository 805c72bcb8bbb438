import Mongo.Matcher.Expression

/-!
# Splitting a match expression around fields

`splitMatchExpressionBy(expr, fields, renames)` (`db/matcher/expression_algo.cpp`) cuts a filter
in two: a part that does not depend on `fields`, which the pipeline may move ahead of a stage
that changes those fields, and the rest.  A `$and` splits child by child, a `$nor` splits off
the children that are wholly independent, and `$or`, `$not` and `$_internalSchemaXor` do not
split.  A leaf depends on a field when one of the two paths is the other or a prefix of it up to
a `.` (`isLeafIndependentOf`); an array matcher or an expression of category `kOther` is never
independent.

With no renames, `applyRenamesToExpression` finds no rename to apply, and
`splitMatchExpressionBy` returns what `splitMatchExpressionByWithoutRenames` returns: the renames
are not modelled.  `none` stands for `nullptr`.
-/

namespace Mongo

namespace MatchExpression

variable {E L O : Type}

/-- `MatchExpression::MatchCategory`. -/
inductive MatchCategory
  | kLeaf
  | kArrayMatching
  | kLogical
  | kOther
  deriving DecidableEq, Repr

/-- `getCategory()`. -/
def getCategory : MatchExpression E L O → MatchCategory
  | .listOf _ _ | .not _ => .kLogical
  | .comparison .. | .inExpr .. | .regex .. | .leaf .. => .kLeaf
  | .elemMatchObject .. | .elemMatchValue .. | .size .. => .kArrayMatching
  | .other _ => .kOther

/-- `expression::isPathPrefixOf(first, second)`: `first` is a proper prefix of `second` that
stops at a `.`.  The source compares bytes; a UTF-8 prefix ends where a character does, so
comparing characters gives the same answer. -/
def isPathPrefixOf (first second : String) : Bool :=
  decide (first.toList.length < second.toList.length) && first.toList.isPrefixOf second.toList &&
    second.toList[first.toList.length]? == some '.'

/-- `isLeafIndependentOf(path, fields)`: no field is the path, a prefix of it, or has it as a
prefix. -/
def isLeafIndependentOf (path : String) (fields : List String) : Bool :=
  fields.all fun field => !(path == field || isPathPrefixOf path field || isPathPrefixOf field path)

mutual

/-- `expression::isIndependentOf(expr, pathSet)`: a logical expression whose children all are,
or a leaf whose path is. -/
def isIndependentOf : MatchExpression E L O → List String → Bool
  | .listOf _ children, pathSet => isIndependentOfChildren children pathSet
  | .not exp, pathSet => isIndependentOf exp pathSet
  | .comparison _ path _, pathSet | .inExpr path _ _, pathSet | .regex path _ _, pathSet
  | .leaf path _, pathSet => isLeafIndependentOf path pathSet
  -- "All other match expressions are never considered independent"
  | .elemMatchObject .., _ | .elemMatchValue .., _ | .size .., _ | .other _, _ => false

/-- Every child is independent of `pathSet`. -/
def isIndependentOfChildren : List (MatchExpression E L O) → List String → Bool
  | [], _ => true
  | child :: children, pathSet =>
      isIndependentOf child pathSet && isIndependentOfChildren children pathSet

end

/-- `createAndOfNodes(children)`: nothing, the one child, or their `$and`. -/
def createAndOfNodes (children : List (MatchExpression E L O)) : Option (MatchExpression E L O) :=
  match children with
  | [] => none
  | [child] => some child
  | children => some (.listOf .and children)

/-- `createNorOfNodes(children)`: nothing, or their `$nor`. -/
def createNorOfNodes (children : List (MatchExpression E L O)) : Option (MatchExpression E L O) :=
  match children with
  | [] => none
  | children => some (.listOf .nor children)

mutual

/-- `splitMatchExpressionByWithoutRenames(expr, fields)`: the part independent of `fields` and
the part that relies on them. -/
def splitMatchExpressionByWithoutRenames :
    MatchExpression E L O → List String →
      Option (MatchExpression E L O) × Option (MatchExpression E L O)
  | expr, fields =>
      -- "'expr' does not depend upon 'fields', so it can be completely moved"
      if isIndependentOf expr fields then (some expr, none)
      else
        match expr with
        | .listOf .and children =>
            let parts := splitChildren children fields
            (createAndOfNodes parts.1, createAndOfNodes parts.2)
        -- "we must look for a wholly independent child to split off by itself"
        | .listOf .nor children =>
            (createNorOfNodes (children.filter (isIndependentOf · fields)),
              createNorOfNodes (children.filter fun child => !isIndependentOf child fields))
        -- a leaf that was not independent, and "If we aren't independent, we can't safely
        -- split" a `$or`, a `$not` or a `$_internalSchemaXor`
        | expr => (none, some expr)

/-- The loop of the `AND` case: each child's independent part goes to `separate`, its reliant
part to `reliant`. -/
def splitChildren : List (MatchExpression E L O) → List String →
    List (MatchExpression E L O) × List (MatchExpression E L O)
  | [], _ => ([], [])
  | child :: children, fields =>
      let split := splitMatchExpressionByWithoutRenames child fields
      let rest := splitChildren children fields
      (split.1.toList ++ rest.1, split.2.toList ++ rest.2)

end

end MatchExpression

end Mongo
