import Mongo.Matcher.ExpressionAlgo

/-!
# The split is exact

`splitMatchExpressionByWithoutRenames` cuts an expression into an independent part and a
reliant part.  For every expression and every set of fields (`splitOf_split`):

* at least one part is there, and the reliant one is whenever the expression depends on the
  fields;
* a document matches the expression exactly when it matches both parts that are there: a `$and`
  is the `$and` of its children's parts, and `!(x | y) = !x & !y` splits a `$nor`;
* the independent part is independent of the fields.

What the independent part decides of a document then depends only on the elements at the paths
independent of the fields (`matchesBSON_eq_of_isIndependentOf`).  Which documents have the same
elements there is a question about `ElementPath`, which the view takes as given.
-/

namespace Mongo

namespace MatchExpression

variable {E D L O : Type}

@[simp] theorem isIndependentOfChildren_eq (children : List (MatchExpression E L O))
    (fields : List String) :
    isIndependentOfChildren children fields = children.all (isIndependentOf · fields) := by
  induction children with
  | nil => rfl
  | cons child children ih => simp [isIndependentOfChildren, ih]

section Nodes

variable (B : BSONView E D L O)

/-- A document matches `createAndOfNodes(children)`, or its absence, when it matches every
child. -/
theorem createAndOfNodes_matchesBSON (children : List (MatchExpression E L O)) (doc : D) :
    (createAndOfNodes children).all (matchesBSON B · doc) =
      (children.map (matchesBSON B · doc)).all id := by
  match children with
  | [] => rfl
  | [child] => simp [createAndOfNodes]
  | _ :: _ :: _ => simp [createAndOfNodes, matchesBSON, ListOfType.combine]

/-- A document matches `createNorOfNodes(children)`, or its absence, when it matches no
child. -/
theorem createNorOfNodes_matchesBSON (children : List (MatchExpression E L O)) (doc : D) :
    (createNorOfNodes children).all (matchesBSON B · doc) =
      !(children.map (matchesBSON B · doc)).any id := by
  match children with
  | [] => rfl
  | _ :: _ => simp [createNorOfNodes, matchesBSON, ListOfType.combine]

theorem isSome_createAndOfNodes {children : List (MatchExpression E L O)} (h : children ≠ []) :
    (createAndOfNodes children).isSome := by
  match children, h with
  | [_], _ | _ :: _ :: _, _ => rfl

theorem isSome_createNorOfNodes {children : List (MatchExpression E L O)} (h : children ≠ []) :
    (createNorOfNodes children).isSome := by
  match children, h with
  | _ :: _, _ => rfl

/-- The `$and` of independent children is independent. -/
theorem isIndependentOf_createAndOfNodes {children : List (MatchExpression E L O)}
    {fields : List String} (h : ∀ child ∈ children, isIndependentOf child fields = true) :
    ∀ sep ∈ createAndOfNodes children, isIndependentOf sep fields = true := by
  match children, h with
  | [], _ => simp [createAndOfNodes]
  | [child], h => simpa [createAndOfNodes] using h
  | _ :: _ :: _, h => simpa [createAndOfNodes, isIndependentOf] using h

/-- The `$nor` of independent children is independent. -/
theorem isIndependentOf_createNorOfNodes {children : List (MatchExpression E L O)}
    {fields : List String} (h : ∀ child ∈ children, isIndependentOf child fields = true) :
    ∀ sep ∈ createNorOfNodes children, isIndependentOf sep fields = true := by
  match children, h with
  | [], _ => simp [createNorOfNodes]
  | _ :: _, h => simpa [createNorOfNodes, isIndependentOf] using h

end Nodes

/-! ## The split -/

section Split

variable (B : BSONView E D L O) (fields : List String)

/-- What the split of `expr` is: at least one part, the reliant one when `expr` depends on the
fields; the conjunction of the parts decides as `expr` does; an independent separated part. -/
structure SplitOf (expr : MatchExpression E L O)
    (split : Option (MatchExpression E L O) × Option (MatchExpression E L O)) : Prop where
  reliant : isIndependentOf expr fields = false → split.2.isSome
  separate : isIndependentOf expr fields = true → split.1.isSome
  matchesBSON : ∀ doc,
    expr.matchesBSON B doc = (split.1.all (matchesBSON B · doc) && split.2.all (matchesBSON B · doc))
  independent : ∀ sep ∈ split.1, isIndependentOf sep fields = true

/-- What the loop of the `AND` case gives: a reliant part once a child is dependent, the
conjunction of the parts deciding as the children do, independent separated parts. -/
structure SplitOfChildren (children : List (MatchExpression E L O))
    (parts : List (MatchExpression E L O) × List (MatchExpression E L O)) : Prop where
  reliant : children.all (isIndependentOf · fields) = false → parts.2 ≠ []
  matchesBSON : ∀ doc, (children.map (matchesBSON B · doc)).all id =
    ((parts.1.map (matchesBSON B · doc)).all id && (parts.2.map (matchesBSON B · doc)).all id)
  independent : ∀ sep ∈ parts.1, isIndependentOf sep fields = true

/-- An expression the split leaves whole, as the reliant part. -/
theorem splitOf_reliant (expr : MatchExpression E L O) (h : isIndependentOf expr fields = false) :
    SplitOf B fields expr (none, some expr) :=
  ⟨fun _ => rfl, fun h' => absurd (h.symm.trans h') (by simp), fun _ => by simp, by simp⟩

/-- No element of a list holds exactly when none of those with `p` does and none of the others
does. -/
theorem not_any_filter_split {α : Type} (l : List α) (p f : α → Bool) :
    (!(l.map f).any id) =
      ((!((l.filter p).map f).any id) && !((l.filter fun a => !p a).map f).any id) := by
  induction l with
  | nil => rfl
  | cons a l ih =>
      simp only [List.filter_cons]
      cases hp : p a <;> cases hf : f a <;> simp_all

/-- The `NOR` case: the independent children and the others, each under a `$nor`. -/
theorem splitOf_nor (children : List (MatchExpression E L O))
    (h : isIndependentOf (.listOf .nor children) fields = false) :
    SplitOf B fields (.listOf .nor children)
      (createNorOfNodes (children.filter (isIndependentOf · fields)),
        createNorOfNodes (children.filter fun child => !isIndependentOf child fields)) := by
  have hdep : ∃ child ∈ children, isIndependentOf child fields = false := by
    simpa [isIndependentOf] using h
  refine ⟨fun _ => ?_, fun h' => absurd (h.symm.trans h') (by simp), fun doc => ?_, ?_⟩
  · obtain ⟨child, hc, hdc⟩ := hdep
    exact isSome_createNorOfNodes (List.ne_nil_of_mem (List.mem_filter.mpr ⟨hc, by simp [hdc]⟩))
  · rw [createNorOfNodes_matchesBSON, createNorOfNodes_matchesBSON]
    simp only [matchesBSON, matchesChildren_eq, ListOfType.combine]
    exact not_any_filter_split children _ _
  · exact isIndependentOf_createNorOfNodes (fun child hc => (List.mem_filter.mp hc).2)

/-- The `AND` case: the `$and` of the children's independent parts and that of their reliant
parts. -/
theorem splitOf_and (children : List (MatchExpression E L O))
    (h : isIndependentOf (.listOf .and children) fields = false)
    {parts : List (MatchExpression E L O) × List (MatchExpression E L O)}
    (hparts : SplitOfChildren B fields children parts) :
    SplitOf B fields (.listOf .and children) (createAndOfNodes parts.1, createAndOfNodes parts.2) := by
  refine ⟨fun _ => isSome_createAndOfNodes (hparts.reliant (by simpa [isIndependentOf] using h)),
    fun h' => absurd (h.symm.trans h') (by simp), fun doc => ?_,
    isIndependentOf_createAndOfNodes hparts.independent⟩
  rw [createAndOfNodes_matchesBSON, createAndOfNodes_matchesBSON, ← hparts.matchesBSON doc]
  simp [matchesBSON, ListOfType.combine]

/-- The split of an expression: moved whole when independent, and otherwise as the node splits. -/
theorem splitOf_ite {expr : MatchExpression E L O}
    {dependent : Option (MatchExpression E L O) × Option (MatchExpression E L O)}
    (hdep : isIndependentOf expr fields = false → SplitOf B fields expr dependent) :
    SplitOf B fields expr
      (if isIndependentOf expr fields = true then (some expr, none) else dependent) := by
  split_ifs with hind
  · -- "'expr' does not depend upon 'fields', so it can be completely moved"
    refine ⟨fun h => absurd (hind.symm.trans h) (by simp), fun _ => rfl, fun _ => by simp, ?_⟩
    intro sep hsep
    rw [Option.mem_some_iff] at hsep
    rw [← hsep]
    exact hind
  · exact hdep (by simpa using hind)

/-- A node the split does not cut: a leaf, an array matcher, a `kOther` expression, and a `$or`,
a `$not` or a `$_internalSchemaXor` ("If we aren't independent, we can't safely split"). -/
theorem splitOf_unsplittable {expr : MatchExpression E L O}
    (hand : ∀ children, expr ≠ .listOf .and children)
    (hnor : ∀ children, expr ≠ .listOf .nor children) :
    SplitOf B fields expr (splitMatchExpressionByWithoutRenames expr fields) := by
  rw [splitMatchExpressionByWithoutRenames.eq_3 _ _ hand hnor]
  exact splitOf_ite B fields (splitOf_reliant B fields expr)

mutual

/-- **The split of every expression is exact.**  By induction over the tree: a `$and` from the
splits of its children, a `$nor` by the independence of its children, and every other node
moved or kept whole. -/
theorem splitOf_split :
    ∀ expr : MatchExpression E L O,
      SplitOf B fields expr (splitMatchExpressionByWithoutRenames expr fields)
  | .listOf .and children => by
      rw [splitMatchExpressionByWithoutRenames.eq_1]
      exact splitOf_ite B fields fun h =>
        splitOf_and B fields children h (splitOfChildren_splitChildren children)
  | .listOf .nor children => by
      rw [splitMatchExpressionByWithoutRenames.eq_2]
      exact splitOf_ite B fields (splitOf_nor B fields children)
  | .listOf .or _ => splitOf_unsplittable B fields (by simp) (by simp)
  | .listOf .internalSchemaXor _ => splitOf_unsplittable B fields (by simp) (by simp)
  | .not _ => splitOf_unsplittable B fields (by simp) (by simp)
  | .comparison .. => splitOf_unsplittable B fields (by simp) (by simp)
  | .inExpr .. => splitOf_unsplittable B fields (by simp) (by simp)
  | .regex .. => splitOf_unsplittable B fields (by simp) (by simp)
  | .leaf .. => splitOf_unsplittable B fields (by simp) (by simp)
  | .elemMatchObject .. => splitOf_unsplittable B fields (by simp) (by simp)
  | .elemMatchValue .. => splitOf_unsplittable B fields (by simp) (by simp)
  | .size .. => splitOf_unsplittable B fields (by simp) (by simp)
  | .other _ => splitOf_unsplittable B fields (by simp) (by simp)

/-- The loop of the `AND` case over the children. -/
theorem splitOfChildren_splitChildren :
    ∀ children : List (MatchExpression E L O),
      SplitOfChildren B fields children (splitChildren children fields)
  | [] => ⟨by simp, fun _ => rfl, by simp [splitChildren]⟩
  | child :: children => by
      have hc := splitOf_split child
      have hs := splitOfChildren_splitChildren children
      rw [splitChildren]
      refine ⟨fun hdep => ?_, fun doc => ?_, fun sep hsep => ?_⟩
      · cases hci : isIndependentOf child fields
        · obtain ⟨r, hr⟩ := Option.isSome_iff_exists.mp (hc.reliant hci)
          simp [hr]
        · have hrest : children.all (isIndependentOf · fields) = false := by
            simpa [hci] using hdep
          simpa using fun _ => hs.reliant hrest
      · rw [List.map_cons, List.all_cons, hc.matchesBSON doc, hs.matchesBSON doc]
        cases (splitMatchExpressionByWithoutRenames child fields).1 <;>
          cases (splitMatchExpressionByWithoutRenames child fields).2 <;>
          simp [Bool.and_comm, Bool.and_left_comm, Bool.and_assoc]
      · rcases List.mem_append.mp hsep with hsep | hsep
        · exact hc.independent sep (by simpa using hsep)
        · exact hs.independent sep hsep

end

end Split

/-! ## What the independent part reads -/

/-- Two documents with the same elements at every path independent of `fields`. -/
def AgreeOff (B : BSONView E D L O) (fields : List String) (doc doc' : D) : Prop :=
  ∀ path, isLeafIndependentOf path fields = true →
    ∀ expand, B.pathElements doc path expand = B.pathElements doc' path expand

mutual

/-- **An independent expression decides the same on documents that agree off the fields**: it
reads the elements at its leaves' paths only, all independent of them. -/
theorem matchesBSON_eq_of_isIndependentOf (B : BSONView E D L O) {fields : List String}
    {doc doc' : D} (hagree : AgreeOff B fields doc doc') :
    ∀ expr : MatchExpression E L O, isIndependentOf expr fields = true →
      expr.matchesBSON B doc = expr.matchesBSON B doc'
  | .listOf t children, h => by
      have ih := matchesChildren_eq_of_isIndependentOf B hagree children
        (by simpa [isIndependentOf] using h)
      simp only [matchesBSON, matchesChildren_eq]
      rw [ih]
  | .not exp, h => by
      simp only [matchesBSON, matchesBSON_eq_of_isIndependentOf B hagree exp h]
  | .comparison _ path _, h | .inExpr path _ _, h | .regex path _ _, h | .leaf path _, h => by
      simp only [matchesBSON, hagree path h]
  | .elemMatchObject .., h | .elemMatchValue .., h | .size .., h | .other _, h => by
      simp [isIndependentOf] at h

/-- `matchesBSON_eq_of_isIndependentOf` for each child. -/
theorem matchesChildren_eq_of_isIndependentOf (B : BSONView E D L O) {fields : List String}
    {doc doc' : D} (hagree : AgreeOff B fields doc doc') :
    ∀ children : List (MatchExpression E L O),
      (∀ child ∈ children, isIndependentOf child fields = true) →
      children.map (matchesBSON B · doc) = children.map (matchesBSON B · doc')
  | [], _ => rfl
  | child :: children, h => by
      rw [List.map_cons, List.map_cons,
        matchesBSON_eq_of_isIndependentOf B hagree child (h child List.mem_cons_self),
        matchesChildren_eq_of_isIndependentOf B hagree children
          (fun c hc => h c (List.mem_cons_of_mem _ hc))]

end

end MatchExpression

end Mongo
