import Mathlib
import Mongo.Lib.Loop

/-!
# Parsing an update into a tree of update nodes

`UpdateObjectNode::parseAndMerge` (`db/update/update_object_node.cpp`) adds one modifier of an
update, such as `{$set: {'a.b': 1}}`, to the tree of update nodes that the update builds.  It
splits the field name at the dots (`FieldRef::parse`) and checks the path
(`fieldchecker::isUpdatable`, the positional `$` checks).  It initialises the leaf node of the
modifier.  Then it walks the path from the root: it finds or creates an `UpdateObjectNode`, or an
`UpdateArrayNode` where the next part is an array filter identifier `$[<id>]`.  It fails with
`ConflictingUpdateOperators` where an existing node has the wrong type.  It puts the leaf at the
end, unless a node is already there.  A `$rename` puts a `ConflictPlaceholderNode` at its source
path and a `RenameNode` at its destination.  `parseUpdateExpression` (`update_driver.cpp`) calls
it for each field of each modifier, in order, and stops at the first error.

The tree is represented by the node at each path of child names below the root
`UpdateObjectNode`: `getChild(name)` of the node at `path` is the node at `path ++ [name]`, and
`setChild` sets it.  The positional child `_positionalChild` of an `UpdateObjectNode` is the
child named `$`, as `getChild` and `setChild` treat it.  A leaf is the modifier and the element
it was initialised from.  The checks a leaf's `init` makes of its argument are a parameter
`initModifier`, except for `$rename` and the placeholder, which are modelled.  The
`ExpressionContext` is left out, and the array filters are given by their identifiers.
-/

namespace Mongo
namespace Update

/-- The codes of the statuses `parseAndMerge` returns. -/
inductive ErrorCodes
  | badValue
  | emptyFieldName
  | conflictingUpdateOperators
  deriving DecidableEq, Repr

/-- A `Status` that is not OK. -/
structure Status where
  code : ErrorCodes
  reason : String
  deriving DecidableEq, Repr

/-- `modifiertable::ModifierType`.  `MOD_UNKNOWN`, for which `makeUpdateLeafNode` makes no node,
is left out: `parseUpdateExpression` refuses an unknown modifier before it parses its fields. -/
inductive ModifierType
  | modAddToSet
  | modBit
  | modCurrentdate
  | modInc
  | modMax
  | modMin
  | modMul
  | modPop
  | modPull
  | modPullAll
  | modPush
  | modSet
  | modSetOnInsert
  | modRename
  | modUnset
  | modConflictPlaceholder
  deriving DecidableEq, Repr

/-- The value of a BSON element: a string, as `$rename` needs, or any other value. -/
inductive ElementValue (V : Type)
  | string (s : String)
  | other (v : V)
  deriving DecidableEq, Repr

/-- `BSONElement modExpr`: a field of a modifier, such as `'a.b': 1` in `{$set: {'a.b': 1}}`. -/
structure BSONElement (V : Type) where
  fieldName : String
  value : ElementValue V
  deriving DecidableEq, Repr

/-- An element as it is written into a status: `fieldName: value`. -/
def BSONElement.toString {V : Type} [ToString V] (e : BSONElement V) : String :=
  e.fieldName ++ ": " ++
    match e.value with
    | .string s => "\"" ++ s ++ "\""
    | .other v => ToString.toString v

/-! ## Paths -/

/-- A `FieldRef`: the parts of a dotted path. -/
abbrev FieldRef := List String

/-- The parts between the dots, each possibly empty. -/
def splitAtDots : List Char → List (List Char)
  | [] => [[]]
  | c :: cs =>
      if c = '.' then [] :: splitAtDots cs
      else
        match splitAtDots cs with
        | part :: parts => (c :: part) :: parts
        | [] => [[c]]

namespace FieldRef

/-- `FieldRef::parse(path)`: no parts for the empty path, else the parts between the dots. -/
def parse (path : String) : FieldRef :=
  if path.isEmpty then [] else (splitAtDots path.toList).map String.ofList

/-- `dottedField()`. -/
def dottedField (fieldRef : FieldRef) : String :=
  ".".intercalate fieldRef

/-- `dottedSubstring(startPart, endPart)`. -/
def dottedSubstring (fieldRef : FieldRef) (startPart endPart : ℕ) : String :=
  ".".intercalate ((fieldRef.take endPart).drop startPart)

/-- `isPrefixOf(other)`: a proper prefix that is not empty. -/
def isPrefixOf (fieldRef other : FieldRef) : Bool :=
  decide (0 < fieldRef.length ∧ fieldRef.length < other.length ∧ fieldRef <+: other)

end FieldRef

namespace FieldChecker

/-- `fieldchecker::isUpdatable`: `none` when the path is updatable. -/
def isUpdatable (field : FieldRef) : Option Status :=
  if field.length = 0 then some ⟨.emptyFieldName, "An empty update path is not valid."⟩
  else if field.any String.isEmpty then
    some ⟨.emptyFieldName, "The update path '" ++ field.dottedField ++
      "' contains an empty field name, which is not allowed."⟩
  else none

/-- `fieldchecker::isPositionalElement`. -/
def isPositionalElement (field : String) : Bool :=
  field = "$"

/-- The `count` that `fieldchecker::isPositional` sets: the number of positional parts. -/
def positionalCount (fieldRef : FieldRef) : ℕ :=
  fieldRef.countP isPositionalElement

/-- The `pos` that `fieldchecker::isPositional` sets: the index of the first positional part. -/
def positionalIndex (fieldRef : FieldRef) : ℕ :=
  fieldRef.findIdx isPositionalElement

/-- `fieldchecker::isPositional`. -/
def isPositional (fieldRef : FieldRef) : Bool :=
  0 < positionalCount fieldRef

/-- `fieldchecker::isArrayFilterIdentifier`: `$[`, at least one more character, and `]` last. -/
def isArrayFilterIdentifier (field : String) : Bool :=
  match field.toList with
  | '$' :: '[' :: rest => rest.getLast? == some ']'
  | _ => false

/-- `fieldchecker::hasArrayFilter`. -/
def hasArrayFilter (fieldRef : FieldRef) : Bool :=
  fieldRef.any isArrayFilterIdentifier

end FieldChecker

open FieldChecker

/-- `field.substr(2, field.size() - 3)`: the identifier inside `$[...]`. -/
def arrayFilterIdentifier (field : String) : String :=
  String.ofList ((field.toList.drop 2).dropLast)

/-- `parseArrayFilterIdentifier`: the identifier of the part `field` at `position`, and the
identifiers found so far with it. -/
def parseArrayFilterIdentifier (field : String) (position : ℕ) (fieldRef : FieldRef)
    (arrayFilters : List String) (foundIdentifiers : Finset String) :
    Except Status (String × Finset String) :=
  if position = 0 then
    .error ⟨.badValue, "Cannot have array filter identifier (i.e. '$[<id>]') " ++
      "element in the first position in path '" ++ fieldRef.dottedField ++ "'"⟩
  else
    let identifier := arrayFilterIdentifier field
    if identifier ≠ "" ∧ identifier ∉ arrayFilters then
      .error ⟨.badValue, "No array filter found for identifier '" ++ identifier ++
        "' in path '" ++ fieldRef.dottedField ++ "'"⟩
    else
      .ok (identifier,
        if identifier ≠ "" then insert identifier foundIdentifiers else foundIdentifiers)

/-! ## The tree -/

/-- `UpdateNode::Type`.  A replacement node is never in a tree `parseAndMerge` builds. -/
inductive NodeType
  | object
  | array
  | leaf
  deriving DecidableEq, Repr

/-- A node of the tree: an `UpdateObjectNode`, an `UpdateArrayNode`, or the leaf that
`makeUpdateLeafNode(type)` makes, initialised from `modExpr`.  The children of an internal node
are the nodes of the tree one name below it. -/
inductive UpdateNode (V : Type)
  | object
  | array
  | leaf (type : ModifierType) (modExpr : BSONElement V)
  deriving DecidableEq, Repr

/-- `UpdateNode::type`. -/
def UpdateNode.type {V : Type} : UpdateNode V → NodeType
  | .object => .object
  | .array => .array
  | .leaf _ _ => .leaf

/-- A tree of update nodes, by the node at each path of child names below the root. -/
abbrev UpdateTree (V : Type) := List String → Option (UpdateNode V)

/-! ## Initialising a leaf -/

/-- `RenameNode::init` of a `$rename` from `modExpr.fieldName` to `toPath`: `none` when it
succeeds. -/
def RenameNode.init {V : Type} [ToString V] (modExpr : BSONElement V) (toPath : String) :
    Option Status :=
  let fromFieldRef := FieldRef.parse modExpr.fieldName
  let toFieldRef := FieldRef.parse toPath
  if '\x00' ∈ toPath.toList then
    some ⟨.badValue, "The 'to' field for $rename cannot contain an embedded null byte"⟩
  else if fromFieldRef = toFieldRef then
    some ⟨.badValue, "The source and target field for $rename must differ: " ++
      modExpr.toString⟩
  else if fromFieldRef.isPrefixOf toFieldRef ∨ toFieldRef.isPrefixOf fromFieldRef then
    some ⟨.badValue, "The source and target field for $rename must not be on the same path: " ++
      modExpr.toString⟩
  else if isPositional fromFieldRef ∨ hasArrayFilter fromFieldRef then
    some ⟨.badValue, "The source field for $rename may not be dynamic: " ++
      fromFieldRef.dottedField⟩
  else if isPositional toFieldRef ∨ hasArrayFilter toFieldRef then
    some ⟨.badValue, "The destination field for $rename may not be dynamic: " ++
      toFieldRef.dottedField⟩
  else none

section Parse

variable {V : Type} [ToString V] (initModifier : ModifierType → BSONElement V → Option Status)
  (arrayFilters : List String)

/-- `leaf->init(modExpr, expCtx)` for the leaf `makeUpdateLeafNode(type)` makes: `none` when it
succeeds.  A `ConflictPlaceholderNode` accepts everything. -/
def initLeaf (type : ModifierType) (modExpr : BSONElement V) : Option Status :=
  match type with
  | .modConflictPlaceholder => none
  | .modRename =>
      match modExpr.value with
      | .string toPath => RenameNode.init modExpr toPath
      -- not reached: `parseAndMerge` has checked that the value is a string
      | .other _ => none
  | type => initModifier type modExpr

/-- The name of the child for part `i` of the path: the identifier of an array filter
identifier, else the part itself.  Both loops of `parseAndMerge` compute it this way. -/
def childNameOf (fieldRef : FieldRef) (i : ℕ) (foundIdentifiers : Finset String) :
    Except Status (String × Finset String) :=
  let part := fieldRef.getD i ""
  if isArrayFilterIdentifier part then
    parseArrayFilterIdentifier part i fieldRef arrayFilters foundIdentifiers
  else .ok (part, foundIdentifiers)

/-- The status of a conflict at the first `i + 1` parts of the path. -/
def conflictAt (fieldRef : FieldRef) (i : ℕ) : Status :=
  ⟨.conflictingUpdateOperators, "Updating the path '" ++ fieldRef.dottedField ++
    "' would create a conflict at '" ++ fieldRef.dottedSubstring 0 (i + 1) ++ "'"⟩

/-- What the loop creating the internal nodes carries: the path of `current`, the tree and the
identifiers found. -/
structure MergeState (V : Type) where
  current : List String
  root : UpdateTree V
  foundIdentifiers : Finset String

/-- One iteration of the loop that creates `UpdateInternalNode`s along the path.  An early
`return` carries its status. -/
def mergeInternalNode (fieldRef : FieldRef) (i : ℕ) (s : MergeState V) :
    Except Empty (Except Status (MergeState V)) :=
  match childNameOf arrayFilters fieldRef i s.foundIdentifiers with
  | .error status => .ok (.error status)
  | .ok (childName, foundIdentifiers) =>
      let childPath := s.current ++ [childName]
      let childShouldBeArrayNode := isArrayFilterIdentifier (fieldRef.getD (i + 1) "")
      match s.root childPath with
      | some child =>
          if (childShouldBeArrayNode ∧ child.type ≠ .array) ∨
              (¬ childShouldBeArrayNode ∧ child.type ≠ .object) then
            .ok (.error (conflictAt fieldRef i))
          else .ok (.ok ⟨childPath, s.root, foundIdentifiers⟩)
      | none =>
          let ownedChild : UpdateNode V := if childShouldBeArrayNode then .array else .object
          .ok (.ok ⟨childPath, Function.update s.root childPath (some ownedChild),
            foundIdentifiers⟩)

/-- The part of `parseAndMerge` after the path `fieldRef` is parsed: whether it is positional,
the tree and the identifiers found. -/
def mergeFieldRef (type : ModifierType) (modExpr : BSONElement V) (fieldRef : FieldRef)
    (root : UpdateTree V) (foundIdentifiers : Finset String) :
    Except Status (Bool × UpdateTree V × Finset String) :=
  match isUpdatable fieldRef with
  | some status => .error status
  | none =>
  let positional := isPositional fieldRef
  if positional ∧ positionalCount fieldRef > 1 then
    .error ⟨.badValue, "Too many positional (i.e. '$') elements found in path '" ++
      fieldRef.dottedField ++ "'"⟩
  else if positional ∧ positionalIndex fieldRef = 0 then
    .error ⟨.badValue, "Cannot have positional (i.e. '$') element in the first position in " ++
      "path '" ++ fieldRef.dottedField ++ "'"⟩
  else
  match initLeaf initModifier type modExpr with
  | some status => .error status
  | none =>
  match Loop.forRange (mergeInternalNode arrayFilters fieldRef) 0 (fieldRef.length - 1)
      ⟨[], root, foundIdentifiers⟩ with
  | .error e => e.elim
  | .ok (.error status) => .error status
  | .ok (.ok s) =>
  -- add the leaf node to the end of the path
  match childNameOf arrayFilters fieldRef (fieldRef.length - 1) s.foundIdentifiers with
  | .error status => .error status
  | .ok (childName, foundIdentifiers) =>
  if (s.root (s.current ++ [childName])).isSome then
    .error ⟨.conflictingUpdateOperators, "Updating the path '" ++ fieldRef.dottedField ++
      "' would create a conflict at '" ++ fieldRef.dottedField ++ "'"⟩
  else
    .ok (positional, Function.update s.root (s.current ++ [childName]) (some (.leaf type modExpr)),
      foundIdentifiers)

/-- `UpdateObjectNode::parseAndMerge(root, type, modExpr, expCtx, arrayFilters,
foundIdentifiers)`: whether the path is positional, the tree and the identifiers found. -/
def parseAndMerge (type : ModifierType) (modExpr : BSONElement V) (root : UpdateTree V)
    (foundIdentifiers : Finset String) : Except Status (Bool × UpdateTree V × Finset String) :=
  if type ≠ .modRename then
    mergeFieldRef initModifier arrayFilters type modExpr (FieldRef.parse modExpr.fieldName) root
      foundIdentifiers
  else
    -- a placeholder at the source path, then the rename at the destination
    match mergeFieldRef initModifier arrayFilters .modConflictPlaceholder modExpr
        (FieldRef.parse modExpr.fieldName) root foundIdentifiers with
    | .error status => .error status
    | .ok (_, root, foundIdentifiers) =>
        match modExpr.value with
        | .other _ =>
            .error ⟨.badValue, "The 'to' field for $rename must be a string: " ++
              modExpr.toString⟩
        | .string toPath =>
            mergeFieldRef initModifier arrayFilters .modRename modExpr (FieldRef.parse toPath) root
              foundIdentifiers

/-- The loop of `parseUpdateExpression` over the fields of the modifiers, in order, from the
root `root`: whether any is positional, the tree and the identifiers found. -/
def parseAndMergeAll (fields : List (ModifierType × BSONElement V)) (root : UpdateTree V)
    (foundIdentifiers : Finset String) : Except Status (Bool × UpdateTree V × Finset String) :=
  fields.foldlM (fun (positional, root, foundIdentifiers) (type, field) => do
      let (fieldPositional, root, foundIdentifiers) ←
        parseAndMerge initModifier arrayFilters type field root foundIdentifiers
      pure (positional || fieldPositional, root, foundIdentifiers))
    (false, root, foundIdentifiers)

end Parse

end Update
end Mongo
