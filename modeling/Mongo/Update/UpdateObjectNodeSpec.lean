import Mathlib
import Mongo.Update.UpdateObjectNode
import Mongo.Lib.PathTrie
import Mongo.Lib.Except

/-!
# `parseAndMerge` places paths in a trie

What `UpdateObjectNode::parseAndMerge` does to the tree is an instance of `PathTrie`: a field
places the steps of its path (`pathSteps`), the child name of each part with the node it finds
or creates there, and the leaf at the end.

* `mergeFieldRef_eq_ok_iff` — `parseAndMerge` on one path succeeds iff the checks that do not
  read the tree pass (`PathChecked`) and the path fits the tree; the tree it leaves is the union
  of the old tree and the path's nodes.  The loop over the parts is run by
  `forRange_mergeInternalNode`, one iteration at a time (`mergeInternalNode_stateAfter`).
* `parseAndMerge_eq_ok_iff` — the same for one field, whose `$rename` places two paths.
* `parseAndMergeAll_eq_ok_iff` — the same for all the fields of an update, one after another.
-/

namespace Mongo
namespace Update

open FieldChecker PathTrie

/-! ## The steps of a path -/

/-- The name of the child a part gives: the identifier inside `$[...]`, else the part. -/
def childName (part : String) : String :=
  if isArrayFilterIdentifier part then arrayFilterIdentifier part else part

variable {V : Type}

/-- The node created for a part before the last: an `UpdateArrayNode` when the next part is an
array filter identifier, else an `UpdateObjectNode`. -/
def internalNode (next : String) : UpdateNode V :=
  if isArrayFilterIdentifier next then .array else .object

/-- The steps a path places: the child name of each part, with the node for the next part,
and `leaf` at the last. -/
def pathSteps (leaf : UpdateNode V) : FieldRef → List (String × UpdateNode V)
  | [] => []
  | [part] => [(childName part, leaf)]
  | part :: next :: rest => (childName part, internalNode next) :: pathSteps leaf (next :: rest)

/-- Whether a node is a leaf. -/
def UpdateNode.isLeaf : UpdateNode V → Bool
  | .leaf _ _ => true
  | _ => false

@[simp] theorem isLeaf_internalNode (next : String) : (internalNode next : UpdateNode V).isLeaf = false := by
  unfold internalNode
  split <;> rfl

theorem map_fst_pathSteps (leaf : UpdateNode V) :
    ∀ parts : FieldRef, (pathSteps leaf parts).map Prod.fst = parts.map childName
  | [] => rfl
  | [_] => rfl
  | part :: next :: rest => by
      rw [pathSteps, List.map_cons, map_fst_pathSteps leaf (next :: rest)]
      rfl

@[simp] theorem length_pathSteps (leaf : UpdateNode V) (parts : FieldRef) :
    (pathSteps leaf parts).length = parts.length := by
  rw [← List.length_map (f := Prod.fst), map_fst_pathSteps, List.length_map]

/-- Step `i` of a path: the child name of part `i`, with the node for part `i + 1`, or the leaf
at the last part. -/
theorem getElem_pathSteps (leaf : UpdateNode V) :
    ∀ (parts : FieldRef) (i : ℕ) (h : i < (pathSteps leaf parts).length),
      (pathSteps leaf parts)[i] =
        (childName (parts.getD i ""),
          if i + 1 < parts.length then internalNode (parts.getD (i + 1) "") else leaf)
  | [], i, h => by simp at h
  | [part], i, h => by
      simp only [length_pathSteps, List.length_singleton, Nat.lt_one_iff] at h
      subst h
      simp [pathSteps]
  | part :: next :: rest, 0, _ => by simp [pathSteps]
  | part :: next :: rest, i + 1, h => by
      simp only [pathSteps, List.getElem_cons_succ]
      rw [getElem_pathSteps leaf (next :: rest) i (by simpa [pathSteps] using h)]
      simp

/-- The path of step `i` is the child names of the first `i + 1` parts. -/
theorem pathAt_pathSteps (leaf : UpdateNode V) (parts : FieldRef) (i : ℕ) :
    pathAt (pathSteps leaf parts) i = (parts.take (i + 1)).map childName := by
  rw [pathAt, List.map_take, map_fst_pathSteps, List.map_take]

/-- A path with a leaf at its end is a path to place. -/
theorem placed_pathSteps {leaf : UpdateNode V} (hleaf : leaf.isLeaf = true) {parts : FieldRef}
    (hne : parts ≠ []) : Placed UpdateNode.isLeaf (pathSteps leaf parts) := by
  refine ⟨fun h => hne (List.length_eq_zero_iff.mp (by rw [← length_pathSteps leaf, h]; rfl)),
    fun i hi => ?_⟩
  rw [getElem_pathSteps]
  simp only [length_pathSteps] at hi ⊢
  by_cases hlast : i + 1 < parts.length
  · simp [hlast]
    omega
  · simp [hlast, hleaf]
    omega

/-! ## The name of a child -/

section ChildName

variable (arrayFilters : List String)

/-- `parseArrayFilterIdentifier` accepts part `i` if it is an array filter identifier: it is not
the first part, and its identifier is empty or has an array filter. -/
def ArrayFilterOK (fieldRef : FieldRef) (i : ℕ) : Prop :=
  isArrayFilterIdentifier (fieldRef.getD i "") = true →
    i ≠ 0 ∧ (arrayFilterIdentifier (fieldRef.getD i "") = "" ∨
      arrayFilterIdentifier (fieldRef.getD i "") ∈ arrayFilters)

/-- The identifier a part adds to `foundIdentifiers`, if any. -/
def partIdentifiers (part : String) : List String :=
  if isArrayFilterIdentifier part ∧ arrayFilterIdentifier part ≠ "" then
    [arrayFilterIdentifier part]
  else []

/-- **The name of a child** is found iff the part's array filter is, and it is `childName`. -/
theorem childNameOf_eq_ok_iff {fieldRef : FieldRef} {i : ℕ} {found : Finset String}
    {r : String × Finset String} :
    childNameOf arrayFilters fieldRef i found = .ok r ↔
      ArrayFilterOK arrayFilters fieldRef i ∧
        r = (childName (fieldRef.getD i ""), found ∪ (partIdentifiers (fieldRef.getD i "")).toFinset) := by
  simp only [childNameOf, ArrayFilterOK, childName, partIdentifiers]
  generalize fieldRef.getD i "" = part
  by_cases hid : isArrayFilterIdentifier part = true
  · simp only [hid, if_true, true_implies, true_and, parseArrayFilterIdentifier]
    by_cases h0 : i = 0
    · simp [h0]
    by_cases hempty : arrayFilterIdentifier part = ""
    · simp [hempty, h0, eq_comm]
    by_cases hmem : arrayFilterIdentifier part ∈ arrayFilters
    · simp [hempty, hmem, h0, Finset.union_singleton, eq_comm]
    · simp only [h0, if_false, ne_eq, hempty, not_false_eq_true, hmem, and_self, if_true,
        reduceCtorEq, or_self, and_false, false_and]
  · simp only [hid, Bool.false_eq_true, if_false, false_and, false_implies, true_and,
      List.toFinset_nil, Finset.union_empty, Except.ok.injEq]
    exact eq_comm

end ChildName

/-! ## The loop over the parts -/

/-- The check of an existing child: its type is wrong iff it is not the node the step would
create. -/
theorem typeMismatch_iff (child : UpdateNode V) (next : String) :
    ((isArrayFilterIdentifier next = true ∧ ¬ child.type = .array) ∨
        (¬ isArrayFilterIdentifier next = true ∧ ¬ child.type = .object)) ↔
      ¬ child = internalNode next := by
  unfold internalNode
  cases child <;> cases isArrayFilterIdentifier next <;> simp [UpdateNode.type]

section Loop

variable (arrayFilters : List String) (fieldRef : FieldRef) (root : UpdateTree V)
  (found : Finset String) (leaf : UpdateNode V)

/-- Step `i` finds no node at the path of the first `i + 1` parts, or the node it creates. -/
def StepFits (i : ℕ) : Prop :=
  root ((fieldRef.take (i + 1)).map childName) = none ∨
    root ((fieldRef.take (i + 1)).map childName) = some (internalNode (fieldRef.getD (i + 1) ""))

/-- The state after `i` iterations of the loop that went on: `current` at the child names of the
first `i` parts, their nodes added to the tree, and their identifiers found. -/
def stateAfter (i : ℕ) : MergeState V :=
  ⟨(fieldRef.take i).map childName, union root (footprint ((pathSteps leaf fieldRef).take i)),
    found ∪ ((fieldRef.take i).flatMap partIdentifiers).toFinset⟩

theorem stateAfter_zero : stateAfter fieldRef root found leaf 0 = ⟨[], root, found⟩ := by
  simp only [stateAfter, List.take_zero, List.map_nil, List.flatMap_nil, List.toFinset_nil,
    Finset.union_empty, MergeState.mk.injEq, true_and, and_true]
  funext c
  simp [footprint]

variable {fieldRef} {i : ℕ}

theorem stateAfter_current_succ (hi : i < fieldRef.length) :
    (stateAfter fieldRef root found leaf i).current ++ [childName (fieldRef.getD i "")] =
      (fieldRef.take (i + 1)).map childName := by
  simp only [stateAfter, List.take_add_one, List.getElem?_eq_getElem hi, Option.toList_some,
    List.map_append, List.map_singleton, List.getD_eq_getElem _ _ hi]

/-- The steps so far have placed nothing at the path of the next one. -/
theorem stateAfter_root_next (hi : i < fieldRef.length) :
    (stateAfter fieldRef root found leaf i).root ((fieldRef.take (i + 1)).map childName) =
      root ((fieldRef.take (i + 1)).map childName) := by
  rw [stateAfter, ← pathAt_pathSteps leaf]
  exact union_of_none (footprint_take_pathAt (by simpa using hi))

theorem stateAfter_found_succ (hi : i < fieldRef.length) :
    (stateAfter fieldRef root found leaf (i + 1)).foundIdentifiers =
      (stateAfter fieldRef root found leaf i).foundIdentifiers ∪
        (partIdentifiers (fieldRef.getD i "")).toFinset := by
  simp only [stateAfter, List.take_add_one, List.getElem?_eq_getElem hi, Option.toList_some,
    List.flatMap_append, List.flatMap_singleton, List.toFinset_append, Finset.union_assoc,
    List.getD_eq_getElem _ _ hi]

/-- Step `i` adds the node it creates to the tree. -/
theorem stateAfter_root_succ (hi : i + 1 < fieldRef.length) :
    (stateAfter fieldRef root found leaf (i + 1)).root =
      union root (Function.update (footprint ((pathSteps leaf fieldRef).take i))
        ((fieldRef.take (i + 1)).map childName) (some (internalNode (fieldRef.getD (i + 1) "")))) := by
  have hlen : i < (pathSteps leaf fieldRef).length := by simp; omega
  rw [stateAfter, footprint_take_succ hlen, pathAt_pathSteps, getElem_pathSteps, if_pos hi]

/-- After step `i`, with the node it creates added. -/
theorem stateAfter_succ (hi : i + 1 < fieldRef.length) :
    stateAfter fieldRef root found leaf (i + 1) =
      ⟨(stateAfter fieldRef root found leaf i).current ++ [childName (fieldRef.getD i "")],
        union root (Function.update (footprint ((pathSteps leaf fieldRef).take i))
          ((fieldRef.take (i + 1)).map childName) (some (internalNode (fieldRef.getD (i + 1) "")))),
        (stateAfter fieldRef root found leaf i).foundIdentifiers ∪
          (partIdentifiers (fieldRef.getD i "")).toFinset⟩ := by
  rw [stateAfter_current_succ root found leaf (by omega), ← stateAfter_root_succ root found leaf hi,
    ← stateAfter_found_succ root found leaf (by omega)]
  rfl

/-- **One iteration of the loop** from the state after `i` goes on iff part `i` has its array
filter and the tree fits step `i`, and then it reaches the state after `i + 1`.  Otherwise it
returns its status. -/
theorem mergeInternalNode_stateAfter (hi : i + 1 < fieldRef.length) {s' : MergeState V} :
    mergeInternalNode arrayFilters fieldRef i (stateAfter fieldRef root found leaf i) =
        .ok (.ok s') ↔
      (ArrayFilterOK arrayFilters fieldRef i ∧ StepFits fieldRef root i) ∧
        s' = stateAfter fieldRef root found leaf (i + 1) := by
  unfold mergeInternalNode
  cases hname : childNameOf arrayFilters fieldRef i
      (stateAfter fieldRef root found leaf i).foundIdentifiers with
  | error status =>
      have hnot : ¬ ArrayFilterOK arrayFilters fieldRef i := fun hok => by
        have hok' := (@childNameOf_eq_ok_iff arrayFilters fieldRef i
          (stateAfter fieldRef root found leaf i).foundIdentifiers _).mpr ⟨hok, rfl⟩
        rw [hname] at hok'
        cases hok'
      simp [hnot]
  | ok r =>
      obtain ⟨hok, rfl⟩ := (childNameOf_eq_ok_iff arrayFilters).mp hname
      simp only [hok, true_and]
      rw [stateAfter_succ root found leaf hi, stateAfter_current_succ root found leaf (by omega),
        stateAfter_root_next root found leaf (by omega)]
      cases hroot : root ((fieldRef.take (i + 1)).map childName) with
      | none =>
          have hfits : StepFits fieldRef root i := Or.inl hroot
          simp only [hfits, true_and, Except.ok.injEq, internalNode]
          rw [union_update_of_none _ hroot]
          exact eq_comm
      | some child =>
          have hfits : StepFits fieldRef root i ↔ child = internalNode (fieldRef.getD (i + 1) "") := by
            simp only [StepFits, hroot, reduceCtorEq, false_or, Option.some.injEq]
          simp only [hfits]
          by_cases hchild : child = internalNode (fieldRef.getD (i + 1) "")
          · rw [if_neg ((typeMismatch_iff child _).not.mpr (not_not.mpr hchild))]
            subst hchild
            simp only [Except.ok.injEq, true_and]
            rw [union_update_of_some hroot]
            exact eq_comm
          · rw [if_pos ((typeMismatch_iff child _).mpr hchild)]
            simp only [Except.ok.injEq, reduceCtorEq, hchild, false_and]

/-- **The loop that creates the internal nodes**, run over the first `count` parts, goes through
iff every part it visits has its array filter and the tree fits every step; it then ends in the
state after `count` iterations. -/
theorem forRange_mergeInternalNode {count : ℕ} (hc : count < fieldRef.length)
    {s : MergeState V} :
    Loop.forRange (mergeInternalNode arrayFilters fieldRef) 0 count ⟨[], root, found⟩ =
        .ok (.ok s) ↔
      (∀ i < count, ArrayFilterOK arrayFilters fieldRef i ∧ StepFits fieldRef root i) ∧
        s = stateAfter fieldRef root found leaf count := by
  rw [← stateAfter_zero fieldRef root found leaf]
  constructor
  · intro h
    have hrun := (Loop.forRange_induction
      (fun i s => (∀ j < i, ArrayFilterOK arrayFilters fieldRef j ∧ StepFits fieldRef root j) ∧
        s = stateAfter fieldRef root found leaf i) (fun _ => False) count 0 _
      (fun i s _ hi ⟨hprev, hs⟩ => ⟨fun e _ => e.elim, fun s' hstep => by
        subst hs
        obtain ⟨hchecks, rfl⟩ := (mergeInternalNode_stateAfter arrayFilters root found leaf
          (by omega)).mp hstep
        refine ⟨fun j hj => ?_, rfl⟩
        rcases Nat.lt_succ_iff_lt_or_eq.mp hj with hj | rfl
        · exact hprev j hj
        · exact hchecks⟩)
      ⟨fun _ hj => absurd hj (Nat.not_lt_zero _), rfl⟩).2 s h
    simpa using hrun
  · rintro ⟨hchecks, rfl⟩
    obtain ⟨s', hrun, rfl⟩ := Loop.forRange_invariant
      (fun i s => s = stateAfter fieldRef root found leaf i) count 0 _
      (fun i s _ hi hs => ⟨stateAfter fieldRef root found leaf (i + 1), by
        subst hs
        exact (mergeInternalNode_stateAfter arrayFilters root found leaf (by omega)).mpr
          ⟨hchecks i (by omega), rfl⟩, rfl⟩) rfl
    simpa using hrun

variable {n : ℕ}

/-- After the loop, the leaf goes at the child names of all the parts. -/
theorem stateAfter_last_path (hn : fieldRef.length = n + 1) :
    (stateAfter fieldRef root found leaf n).current ++ [childName (fieldRef.getD n "")] =
      fieldRef.map childName := by
  rw [stateAfter_current_succ root found leaf (by omega), ← hn, List.take_length]

theorem stateAfter_last_next (hn : fieldRef.length = n + 1) :
    (stateAfter fieldRef root found leaf n).root (fieldRef.map childName) =
      root (fieldRef.map childName) := by
  have hpath : fieldRef.map childName = (fieldRef.take (n + 1)).map childName := by
    rw [← hn, List.take_length]
  rw [hpath, stateAfter_root_next root found leaf (by omega)]

/-- The leaf, put where the tree had nothing, completes the path's nodes. -/
theorem stateAfter_last_root (hn : fieldRef.length = n + 1)
    (hnone : root (fieldRef.map childName) = none) :
    Function.update (stateAfter fieldRef root found leaf n).root (fieldRef.map childName)
        (some leaf) = union root (footprint (pathSteps leaf fieldRef)) := by
  have hlen : n < (pathSteps leaf fieldRef).length := by simp [hn]
  have hlast : (pathSteps leaf fieldRef)[n].2 = leaf := by
    rw [getElem_pathSteps, if_neg (by omega)]
  have hpath : pathAt (pathSteps leaf fieldRef) n = fieldRef.map childName := by
    rw [pathAt_pathSteps, ← hn, List.take_length]
  rw [← footprint_take_length, length_pathSteps, hn, footprint_take_succ hlen, hlast, hpath,
    union_update_of_none leaf hnone]
  rfl

theorem stateAfter_last_found (hn : fieldRef.length = n + 1) :
    (stateAfter fieldRef root found leaf n).foundIdentifiers ∪
        (partIdentifiers (fieldRef.getD n "")).toFinset =
      found ∪ (fieldRef.flatMap partIdentifiers).toFinset := by
  rw [← stateAfter_found_succ root found leaf (by omega), stateAfter, ← hn, List.take_length]

/-- A path fits the tree iff every step before the last finds nothing or its own node, and the
last finds nothing. -/
theorem fits_pathSteps_iff (hn : fieldRef.length = n + 1) :
    Fits root (pathSteps leaf fieldRef) ↔
      (∀ i < n, StepFits fieldRef root i) ∧ root (fieldRef.map childName) = none := by
  have hpath : (fieldRef.take (n + 1)).map childName = fieldRef.map childName := by
    rw [← hn, List.take_length]
  simp only [Fits, length_pathSteps, pathAt_pathSteps, getElem_pathSteps, hn]
  constructor
  · intro h
    refine ⟨fun i hi => ?_, ?_⟩
    · rcases h i (by omega) with hnone | ⟨_, hsome⟩
      · exact Or.inl hnone
      · rw [if_pos (by omega)] at hsome
        exact Or.inr hsome
    · rcases h n (by omega) with hnone | ⟨hlt, _⟩
      · rwa [hpath] at hnone
      · omega
  · rintro ⟨hsteps, hlast⟩ i hi
    by_cases hin : i < n
    · rcases hsteps i hin with hnone | hsome
      · exact Or.inl hnone
      · exact Or.inr ⟨by omega, by rw [if_pos (by omega)]; exact hsome⟩
    · obtain rfl : i = n := by omega
      left
      rwa [hpath]

end Loop

/-! ## One path -/

/-- An updatable path has a part, and none of its parts is empty. -/
theorem isUpdatable_eq_none_iff {fieldRef : FieldRef} :
    isUpdatable fieldRef = none ↔ fieldRef ≠ [] ∧ ∀ part ∈ fieldRef, part ≠ "" := by
  unfold isUpdatable
  by_cases hlen : fieldRef.length = 0
  · simp [List.length_eq_zero_iff.mp hlen]
  · have hne : fieldRef ≠ [] := fun h => hlen (by simp [h])
    by_cases hany : fieldRef.any String.isEmpty = true
    · simp only [hlen, hany, if_false, if_true, reduceCtorEq, false_iff, not_and, not_forall,
        not_not]
      intro _
      obtain ⟨part, hmem, hempty⟩ := List.any_eq_true.mp hany
      exact ⟨part, hmem, String.isEmpty_iff.mp hempty⟩
    · simp only [hlen, hany, if_false, Bool.false_eq_true, ne_eq, hne, not_false_eq_true,
        true_and, true_iff]
      intro part hmem hempty
      exact hany (List.any_eq_true.mpr ⟨part, hmem, String.isEmpty_iff.mpr hempty⟩)

/-! ## The paths of a field -/

/-- The paths a field places, each with the modifier of its leaf: the field's own path, or for a
`$rename` the placeholder at the source and, when the destination is a string, the rename at the
destination. -/
def targets (type : ModifierType) (modExpr : BSONElement V) : List (ModifierType × FieldRef) :=
  if type ≠ .modRename then [(type, FieldRef.parse modExpr.fieldName)]
  else
    match modExpr.value with
    | .string toPath =>
        [(.modConflictPlaceholder, FieldRef.parse modExpr.fieldName),
          (.modRename, FieldRef.parse toPath)]
    | .other _ => [(.modConflictPlaceholder, FieldRef.parse modExpr.fieldName)]

/-- The steps of the paths a field places. -/
def fieldSteps (type : ModifierType) (modExpr : BSONElement V) :
    List (List (String × UpdateNode V)) :=
  (targets type modExpr).map fun t => pathSteps (.leaf t.1 modExpr) t.2

/-- The array filter identifiers of the paths a field places. -/
def fieldIdentifiers (type : ModifierType) (modExpr : BSONElement V) : List String :=
  (targets type modExpr).flatMap fun t => t.2.flatMap partIdentifiers

/-- Whether `parseAndMerge` reports a field positional: its last path is. -/
def fieldPositional (type : ModifierType) (modExpr : BSONElement V) : Bool :=
  ((targets type modExpr).getLast?.map fun t => isPositional t.2).getD false

/-- What the loop over the fields carries after a field: whether any field was positional, the
tree with the field's paths added, and the identifiers found with the field's. -/
def fieldNext (s : Bool × UpdateTree V × Finset String) (f : ModifierType × BSONElement V) :
    Bool × UpdateTree V × Finset String :=
  (s.1 || fieldPositional f.1 f.2, unionFrom s.2.1 (fieldSteps f.1 f.2),
    s.2.2 ∪ (fieldIdentifiers f.1 f.2).toFinset)

/-- The loop over the fields, when every field goes through: the fields' positional flags, paths
and identifiers, all together. -/
theorem foldl_fieldNext :
    ∀ (fields : List (ModifierType × BSONElement V)) (s : Bool × UpdateTree V × Finset String),
      fields.foldl fieldNext s =
        (s.1 || fields.any (fun f => fieldPositional f.1 f.2),
          unionFrom s.2.1 (fields.flatMap fun f => fieldSteps f.1 f.2),
          s.2.2 ∪ (fields.flatMap fun f => fieldIdentifiers f.1 f.2).toFinset)
  | [], s => by simp
  | f :: fields, s => by
      rw [List.foldl_cons, foldl_fieldNext fields]
      simp only [fieldNext, List.any_cons, Bool.or_assoc, List.flatMap_cons, unionFrom_append,
        List.toFinset_append, Finset.union_assoc]

section Merge

variable [ToString V] (initModifier : ModifierType → BSONElement V → Option Status)
  (arrayFilters : List String)

/-- The checks `parseAndMerge` makes of a path and its leaf, which do not read the tree. -/
structure PathChecked (type : ModifierType) (modExpr : BSONElement V) (fieldRef : FieldRef) :
    Prop where
  updatable : isUpdatable fieldRef = none
  onePositional : ¬ (isPositional fieldRef = true ∧ positionalCount fieldRef > 1)
  positionalNotFirst : ¬ (isPositional fieldRef = true ∧ positionalIndex fieldRef = 0)
  initialised : initLeaf initModifier type modExpr = none
  filtersFound : ∀ i < fieldRef.length, ArrayFilterOK arrayFilters fieldRef i

variable {type : ModifierType} {modExpr : BSONElement V} {fieldRef : FieldRef}
  {root : UpdateTree V} {found : Finset String}

/-- **`parseAndMerge` on one path** succeeds iff the checks that do not read the tree pass and
the path fits the tree.  The tree it leaves is the old one with the path's nodes added, and the
identifiers found are the old ones with the path's. -/
theorem mergeFieldRef_eq_ok_iff {r : Bool × UpdateTree V × Finset String} :
    mergeFieldRef initModifier arrayFilters type modExpr fieldRef root found = .ok r ↔
      PathChecked initModifier arrayFilters type modExpr fieldRef ∧
        Fits root (pathSteps (.leaf type modExpr) fieldRef) ∧
        r = (isPositional fieldRef, union root (footprint (pathSteps (.leaf type modExpr) fieldRef)),
          found ∪ (fieldRef.flatMap partIdentifiers).toFinset) := by
  unfold mergeFieldRef
  cases hupd : isUpdatable fieldRef with
  | some status =>
      simp only [reduceCtorEq, false_iff, not_and]
      intro hc
      simp [hc.updatable] at hupd
  | none =>
  obtain ⟨n, hn⟩ : ∃ n, fieldRef.length = n + 1 :=
    ⟨fieldRef.length - 1, by
      have := List.length_pos_of_ne_nil (isUpdatable_eq_none_iff.mp hupd).1
      omega⟩
  by_cases hcount : isPositional fieldRef = true ∧ positionalCount fieldRef > 1
  · simp only [if_pos hcount, reduceCtorEq, false_iff, not_and]
    exact fun hc => absurd hcount hc.onePositional
  by_cases hindex : isPositional fieldRef = true ∧ positionalIndex fieldRef = 0
  · simp only [if_neg hcount, if_pos hindex, reduceCtorEq, false_iff, not_and]
    exact fun hc => absurd hindex hc.positionalNotFirst
  simp only [if_neg hcount, if_neg hindex]
  cases hinit : initLeaf initModifier type modExpr with
  | some status =>
      simp only [reduceCtorEq, false_iff, not_and]
      intro hc
      simp [hc.initialised] at hinit
  | none =>
  simp only [show fieldRef.length - 1 = n by omega]
  cases hloop : Loop.forRange (mergeInternalNode arrayFilters fieldRef) 0 n ⟨[], root, found⟩ with
  | error e => exact e.elim
  | ok res =>
  cases res with
  | error status =>
      simp only [reduceCtorEq, false_iff, not_and]
      intro hc hfits
      have hgo := (forRange_mergeInternalNode arrayFilters root found (.leaf type modExpr)
        (show n < fieldRef.length by omega)).mpr
        ⟨fun i hi => ⟨hc.filtersFound i (by omega), ((fits_pathSteps_iff root _ hn).mp hfits).1 i hi⟩,
          rfl⟩
      rw [hloop] at hgo
      cases hgo
  | ok s =>
  obtain ⟨hsteps, rfl⟩ := (forRange_mergeInternalNode arrayFilters root found (.leaf type modExpr)
    (show n < fieldRef.length by omega)).mp hloop
  dsimp only
  cases hname : childNameOf arrayFilters fieldRef n
      (stateAfter fieldRef root found (.leaf type modExpr) n).foundIdentifiers with
  | error status =>
      simp only [reduceCtorEq, false_iff, not_and]
      intro hc
      have hok := (@childNameOf_eq_ok_iff arrayFilters fieldRef n
        (stateAfter fieldRef root found (.leaf type modExpr) n).foundIdentifiers _).mpr
        ⟨hc.filtersFound n (by omega), rfl⟩
      rw [hname] at hok
      cases hok
  | ok p =>
  obtain ⟨hlastOK, rfl⟩ := (childNameOf_eq_ok_iff arrayFilters).mp hname
  simp only [stateAfter_last_path root found _ hn, stateAfter_last_next root found _ hn]
  cases hnone : root (fieldRef.map childName) with
  | some node =>
      simp only [Option.isSome_some, if_true, reduceCtorEq, false_iff, not_and]
      intro _ hfits
      rw [((fits_pathSteps_iff root _ hn).mp hfits).2] at hnone
      cases hnone
  | none =>
  simp only [Option.isSome_none, Bool.false_eq_true, if_false, Except.ok.injEq,
    stateAfter_last_root root found _ hn hnone, stateAfter_last_found root found _ hn]
  have hchecked : PathChecked initModifier arrayFilters type modExpr fieldRef :=
    ⟨hupd, hcount, hindex, hinit, fun i hi => by
      rcases Nat.lt_succ_iff_lt_or_eq.mp (hn ▸ hi) with hi | rfl
      · exact (hsteps i hi).1
      · exact hlastOK⟩
  have hfits : Fits root (pathSteps (.leaf type modExpr) fieldRef) :=
    (fits_pathSteps_iff root _ hn).mpr ⟨fun i hi => (hsteps i hi).2, hnone⟩
  simp only [hchecked, hfits, true_and]
  exact eq_comm

/-- The checks `parseAndMerge` makes of a field, which do not read the tree: a `$rename` has a
string destination, and every path of the field passes its checks. -/
@[mk_iff] structure FieldChecked (type : ModifierType) (modExpr : BSONElement V) : Prop where
  toPathString : type = .modRename → ∃ toPath, modExpr.value = .string toPath
  targetsChecked : ∀ t ∈ targets type modExpr,
    PathChecked initModifier arrayFilters t.1 modExpr t.2

/-- **`parseAndMerge` on one field** succeeds iff its checks pass and its paths fit the tree one
after the other; it adds their nodes and identifiers. -/
theorem parseAndMerge_eq_ok_iff {r : Bool × UpdateTree V × Finset String} :
    parseAndMerge initModifier arrayFilters type modExpr root found = .ok r ↔
      FieldChecked initModifier arrayFilters type modExpr ∧
        FitsSeq root (fieldSteps type modExpr) ∧
        r = (fieldPositional type modExpr, unionFrom root (fieldSteps type modExpr),
          found ∪ (fieldIdentifiers type modExpr).toFinset) := by
  unfold parseAndMerge
  by_cases htype : type = .modRename
  · subst htype
    simp only [ne_eq, not_true_eq_false, if_false]
    cases hvalue : modExpr.value with
    | other v =>
        have hfail : ¬ FieldChecked initModifier arrayFilters .modRename modExpr := fun hc => by
          obtain ⟨toPath, hto⟩ := hc.toPathString rfl
          rw [hvalue] at hto
          cases hto
        simp only [hfail, false_and, iff_false]
        split <;> simp
    | string toPath =>
        have htargets : targets .modRename modExpr =
            [(.modConflictPlaceholder, FieldRef.parse modExpr.fieldName),
              (.modRename, FieldRef.parse toPath)] := by
          simp [targets, hvalue]
        cases h₁ : mergeFieldRef initModifier arrayFilters .modConflictPlaceholder modExpr
            (FieldRef.parse modExpr.fieldName) root found with
        | error status =>
            simp only [reduceCtorEq, false_iff, not_and]
            intro hc hfits
            have hfirst : Fits root (pathSteps (.leaf .modConflictPlaceholder modExpr)
                (FieldRef.parse modExpr.fieldName)) := by
              simp only [fieldSteps, htargets, List.map_cons, fitsSeq_cons] at hfits
              exact hfits.1
            have hplace : mergeFieldRef initModifier arrayFilters .modConflictPlaceholder modExpr
                (FieldRef.parse modExpr.fieldName) root found = .ok _ :=
              (mergeFieldRef_eq_ok_iff initModifier arrayFilters).mpr
                ⟨hc.targetsChecked (.modConflictPlaceholder, FieldRef.parse modExpr.fieldName)
                  (by simp [htargets]), hfirst, rfl⟩
            rw [h₁] at hplace
            cases hplace
        | ok r₁ =>
            obtain ⟨hc₁, hf₁, rfl⟩ := (mergeFieldRef_eq_ok_iff initModifier arrayFilters).mp h₁
            dsimp only
            rw [mergeFieldRef_eq_ok_iff]
            simp only [fieldChecked_iff, htargets, fieldSteps, fieldPositional, fieldIdentifiers,
              List.map_cons, List.map_nil, fitsSeq_cons, fitsSeq_nil, unionFrom_cons, unionFrom_nil,
              List.flatMap_cons, List.flatMap_nil, List.append_nil, List.toFinset_append,
              List.getLast?_cons_cons, List.getLast?_singleton, Option.map_some, Option.getD_some,
              List.mem_cons, List.not_mem_nil, forall_eq_or_imp, forall_eq, or_false, hvalue,
              Finset.union_assoc, hc₁, hf₁, and_true, true_and, true_implies,
              ElementValue.string.injEq, exists_eq']
  · simp only [ne_eq, htype, not_false_eq_true, if_true]
    rw [mergeFieldRef_eq_ok_iff]
    simp [fieldChecked_iff, targets, htype, fieldSteps, fieldPositional, fieldIdentifiers]

/-- What a field needs to go through: its checks pass, and its paths fit the tree so far. -/
def fieldGuard (s : Bool × UpdateTree V × Finset String) (f : ModifierType × BSONElement V) :
    Prop :=
  FieldChecked initModifier arrayFilters f.1 f.2 ∧ FitsSeq s.2.1 (fieldSteps f.1 f.2)

theorem stepsOK_fieldGuard_iff :
    ∀ (fields : List (ModifierType × BSONElement V)) (s : Bool × UpdateTree V × Finset String),
      Except.StepsOK (fieldGuard initModifier arrayFilters) fieldNext s fields ↔
        (∀ f ∈ fields, FieldChecked initModifier arrayFilters f.1 f.2) ∧
          FitsSeq s.2.1 (fields.flatMap fun f => fieldSteps f.1 f.2)
  | [], s => by simp [Except.StepsOK]
  | f :: fields, s => by
      rw [Except.StepsOK, stepsOK_fieldGuard_iff fields, List.flatMap_cons, fitsSeq_append,
        List.forall_mem_cons, fieldGuard, and_and_and_comm]
      rfl

/-- **`parseUpdateExpression` over all the fields** succeeds iff every field passes its checks
and the paths of all the fields fit the tree one after the other.  It then reports whether any
field is positional, and adds all their nodes and identifiers. -/
theorem parseAndMergeAll_eq_ok_iff {fields : List (ModifierType × BSONElement V)}
    {r : Bool × UpdateTree V × Finset String} :
    parseAndMergeAll initModifier arrayFilters fields root found = .ok r ↔
      (∀ f ∈ fields, FieldChecked initModifier arrayFilters f.1 f.2) ∧
        FitsSeq root (fields.flatMap fun f => fieldSteps f.1 f.2) ∧
        r = (fields.any (fun f => fieldPositional f.1 f.2),
          unionFrom root (fields.flatMap fun f => fieldSteps f.1 f.2),
          found ∪ (fields.flatMap fun f => fieldIdentifiers f.1 f.2).toFinset) := by
  unfold parseAndMergeAll
  rw [@Except.foldlM_eq_ok_iff _ _ _ _ (fieldGuard initModifier arrayFilters) fieldNext ?step,
    stepsOK_fieldGuard_iff, foldl_fieldNext, Bool.false_or, and_assoc]
  case step =>
    rintro ⟨positional, root', found'⟩ ⟨type, field⟩ s'
    dsimp only
    rw [Except.bind_eq_ok]
    constructor
    · rintro ⟨⟨fieldPositional', root'', found''⟩, hfield, hs'⟩
      obtain ⟨hchecked, hfits, hr⟩ := (parseAndMerge_eq_ok_iff initModifier arrayFilters).mp hfield
      simp only [Prod.mk.injEq] at hr
      obtain ⟨rfl, rfl, rfl⟩ := hr
      exact ⟨⟨hchecked, hfits⟩, (Except.ok.inj hs').symm⟩
    · rintro ⟨⟨hchecked, hfits⟩, rfl⟩
      exact ⟨_, (parseAndMerge_eq_ok_iff initModifier arrayFilters).mpr ⟨hchecked, hfits, rfl⟩, rfl⟩

end Merge

end Update
end Mongo
