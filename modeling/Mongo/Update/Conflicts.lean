import Mongo.Update.UpdateObjectNodeSpec

/-!
# Which fields of an update conflict

`parseAndMerge` refuses a path in two places: where an existing node has the wrong type for the
part after it, and where a leaf would go on a node that is already there (or a node would go
below a leaf).  Read off the parts of the paths, two paths conflict when one is a prefix of the
other, equal included, or when after the same first parts one goes on with an array filter
identifier `$[<id>]` and the other with an ordinary part (`PathsConflict`).  The child names
alone do not say it: `a.$[i]` and `a.i` have the same child names, and conflict by the type of
the node at `a`.

* `conflict_pathSteps_iff` — two paths placed by `parseAndMerge` conflict in the trie iff their
  parts do (`PathsConflict`);
* `parseAndMergeAll_empty_eq_ok_iff` — fields that each go through alone go through together iff
  no two of them have conflicting paths, and the result is then the same in every order.
-/

namespace Mongo
namespace Update

open FieldChecker PathTrie

variable {V : Type}

/-! ## Child names and node kinds -/

/-- An array filter identifier is `$[`, its identifier, and `]`. -/
theorem toList_of_isArrayFilterIdentifier {part : String}
    (h : isArrayFilterIdentifier part = true) :
    part.toList = '$' :: '[' :: ((arrayFilterIdentifier part).toList ++ [']']) := by
  unfold isArrayFilterIdentifier at h
  unfold arrayFilterIdentifier
  split at h
  next rest hpart =>
    have hlast : ']' ∈ rest.getLast? := by simpa using h
    rw [hpart, List.drop_succ_cons, List.drop_succ_cons, List.drop_zero, String.toList_ofList,
      List.dropLast_append_getLast? _ hlast]
  · cases h

/-- Within one kind of part, the child name determines the part. -/
theorem childName_injective {a b : String}
    (hkind : isArrayFilterIdentifier a = isArrayFilterIdentifier b)
    (h : childName a = childName b) : a = b := by
  unfold childName at h
  cases ha : isArrayFilterIdentifier a with
  | true =>
      have hb : isArrayFilterIdentifier b = true := by rw [← hkind, ha]
      rw [if_pos ha, if_pos hb] at h
      rw [← String.toList_inj, toList_of_isArrayFilterIdentifier ha,
        toList_of_isArrayFilterIdentifier hb, h]
  | false =>
      have hb : isArrayFilterIdentifier b = false := by rw [← hkind, ha]
      simpa [ha, hb] using h

theorem internalNode_eq_iff {a b : String} :
    (internalNode a : UpdateNode V) = internalNode b ↔
      isArrayFilterIdentifier a = isArrayFilterIdentifier b := by
  unfold internalNode
  cases isArrayFilterIdentifier a <;> cases isArrayFilterIdentifier b <;> simp

/-! ## Conflicts of paths, by their parts -/

/-- After the same first parts, one path goes on with an array filter identifier and the other
with an ordinary part. -/
def KindsDiffer (p q : FieldRef) : Prop :=
  ∃ k, k + 1 < p.length ∧ k + 1 < q.length ∧ p.take (k + 1) = q.take (k + 1) ∧
    isArrayFilterIdentifier (p.getD (k + 1) "") ≠ isArrayFilterIdentifier (q.getD (k + 1) "")

/-- Two paths conflict: one is a prefix of the other, equal included, or their kinds differ
after the same first parts. -/
def PathsConflict (p q : FieldRef) : Prop :=
  p <+: q ∨ q <+: p ∨ KindsDiffer p q

theorem kindsDiffer_comm {p q : FieldRef} : KindsDiffer p q → KindsDiffer q p := by
  rintro ⟨k, hp, hq, htake, hkind⟩
  exact ⟨k, hq, hp, htake.symm, Ne.symm hkind⟩

theorem pathsConflict_comm {p q : FieldRef} : PathsConflict p q → PathsConflict q p := by
  rintro (h | h | h)
  · exact Or.inr (Or.inl h)
  · exact Or.inl h
  · exact Or.inr (Or.inr (kindsDiffer_comm h))

variable {p q : FieldRef}

theorem childName_getElem_of_map_take_eq {i : ℕ}
    (h : (p.take (i + 1)).map childName = (q.take (i + 1)).map childName)
    (hp : i < p.length) (hq : i < q.length) : childName p[i] = childName q[i] := by
  have hi := congrArg (fun l => l[i]?) h
  simpa [List.getElem?_map, List.getElem?_take, hp, hq] using hi

theorem take_succ_eq_of_getElem_eq {j : ℕ} (htake : p.take j = q.take j) (hp : j < p.length)
    (hq : j < q.length) (h : p[j] = q[j]) : p.take (j + 1) = q.take (j + 1) := by
  rw [List.take_add_one, List.take_add_one, List.getElem?_eq_getElem hp,
    List.getElem?_eq_getElem hq, htake, h]

/-- **Where the child names of two paths agree, so do the paths**, unless their kinds differed
earlier.  The first parts are ordinary, and after them the induction on the parts goes on while
the kinds agree, where `childName_injective` applies. -/
theorem take_eq_or_kindsDiffer (hp0 : isArrayFilterIdentifier (p.getD 0 "") = false)
    (hq0 : isArrayFilterIdentifier (q.getD 0 "") = false) :
    ∀ i, i < p.length → i < q.length →
      (p.take (i + 1)).map childName = (q.take (i + 1)).map childName →
      p.take (i + 1) = q.take (i + 1) ∨ KindsDiffer p q
  | 0, hp, hq, h => by
      left
      rw [List.getD_eq_getElem _ _ hp] at hp0
      rw [List.getD_eq_getElem _ _ hq] at hq0
      exact take_succ_eq_of_getElem_eq (by simp) hp hq
        (childName_injective (hp0.trans hq0.symm) (childName_getElem_of_map_take_eq h hp hq))
  | i + 1, hp, hq, h => by
      have hprev : (p.take (i + 1)).map childName = (q.take (i + 1)).map childName := by
        have htake := congrArg (List.take (i + 1)) h
        simpa [List.take_take] using htake
      rcases take_eq_or_kindsDiffer hp0 hq0 i (by omega) (by omega) hprev with htake | hdiff
      · by_cases hkind : isArrayFilterIdentifier p[i + 1] = isArrayFilterIdentifier q[i + 1]
        · exact Or.inl (take_succ_eq_of_getElem_eq htake hp hq
            (childName_injective hkind (childName_getElem_of_map_take_eq h hp hq)))
        · refine Or.inr ⟨i, hp, hq, htake, ?_⟩
          rwa [List.getD_eq_getElem _ _ hp, List.getD_eq_getElem _ _ hq]
      · exact Or.inr hdiff

variable {l m : UpdateNode V}

/-- The nodes that two paths place at part `i`, the node for the next part or the leaf, conflict
iff one of the paths ends there or the kinds of their next parts differ. -/
theorem nodes_conflict_iff (hl : l.isLeaf = true) (hm : m.isLeaf = true) {i : ℕ}
    (hi : i < p.length) (hj : i < q.length) :
    let a := if i + 1 < p.length then internalNode (p.getD (i + 1) "") else l
    let b := if i + 1 < q.length then internalNode (q.getD (i + 1) "") else m
    (a ≠ b ∨ a.isLeaf = true ∨ b.isLeaf = true) ↔
      (i + 1 = p.length ∨ i + 1 = q.length ∨
        isArrayFilterIdentifier (p.getD (i + 1) "") ≠ isArrayFilterIdentifier (q.getD (i + 1) "")) := by
  intro a b
  by_cases hp' : i + 1 < p.length
  · by_cases hq' : i + 1 < q.length
    · simp only [a, b, if_pos hp', if_pos hq', ne_eq, internalNode_eq_iff, isLeaf_internalNode,
        Bool.false_eq_true, or_false]
      constructor
      · exact fun h => Or.inr (Or.inr h)
      · rintro (h | h | h)
        · omega
        · omega
        · exact h
    · simp only [b, if_neg hq', hm, or_true, true_iff]
      omega
  · simp only [a, if_neg hp', hl, true_or, or_true, true_iff]
    omega

/-- Two paths with leaves at their ends conflict in the trie iff at some part both place a node
at the same child names, and there one of them ends or their kinds differ. -/
theorem conflict_pathSteps_iff_names (hl : l.isLeaf = true) (hm : m.isLeaf = true) :
    Conflict UpdateNode.isLeaf (pathSteps l p) (pathSteps m q) ↔
      ∃ i, i < p.length ∧ i < q.length ∧
        (p.take (i + 1)).map childName = (q.take (i + 1)).map childName ∧
        (i + 1 = p.length ∨ i + 1 = q.length ∨
          isArrayFilterIdentifier (p.getD (i + 1) "") ≠ isArrayFilterIdentifier (q.getD (i + 1) "")) := by
  unfold Conflict
  simp only [footprint_eq_some_iff]
  constructor
  · rintro ⟨c, _, _, ⟨i, hi, rfl, rfl⟩, ⟨j, hj, hpath, rfl⟩, hcond⟩
    obtain rfl : j = i := by
      have hlen := congrArg List.length hpath
      rw [length_pathAt hi, length_pathAt hj] at hlen
      omega
    simp only [length_pathSteps] at hi hj
    rw [pathAt_pathSteps, pathAt_pathSteps] at hpath
    rw [getElem_pathSteps, getElem_pathSteps] at hcond
    exact ⟨j, hi, hj, hpath.symm, (nodes_conflict_iff hl hm hi hj).mp hcond⟩
  · rintro ⟨i, hi, hj, hnames, hcond⟩
    have hi' : i < (pathSteps l p).length := by simpa using hi
    have hj' : i < (pathSteps m q).length := by simpa using hj
    refine ⟨_, _, _, ⟨i, hi', rfl, rfl⟩, ⟨i, hj', by rw [pathAt_pathSteps, pathAt_pathSteps, hnames],
      rfl⟩, ?_⟩
    rw [getElem_pathSteps, getElem_pathSteps]
    exact (nodes_conflict_iff hl hm hi hj).mpr hcond

/-- A path that ends where another has the same parts is a prefix of it. -/
theorem prefix_of_take_eq {i : ℕ} (htake : p.take (i + 1) = q.take (i + 1))
    (hend : i + 1 = p.length) : p <+: q := by
  rw [List.prefix_iff_eq_take, ← hend, ← htake, hend, List.take_length]

/-- **Two paths placed with leaves at their ends conflict iff their parts do.** -/
theorem conflict_pathSteps_iff (hl : l.isLeaf = true) (hm : m.isLeaf = true) (hp : p ≠ [])
    (hq : q ≠ []) (hp0 : isArrayFilterIdentifier (p.getD 0 "") = false)
    (hq0 : isArrayFilterIdentifier (q.getD 0 "") = false) :
    Conflict UpdateNode.isLeaf (pathSteps l p) (pathSteps m q) ↔ PathsConflict p q := by
  rw [conflict_pathSteps_iff_names hl hm]
  constructor
  · rintro ⟨i, hi, hj, hnames, hcond⟩
    rcases take_eq_or_kindsDiffer hp0 hq0 i hi hj hnames with htake | hdiff
    · by_cases hpend : i + 1 = p.length
      · exact Or.inl (prefix_of_take_eq htake hpend)
      by_cases hqend : i + 1 = q.length
      · exact Or.inr (Or.inl (prefix_of_take_eq htake.symm hqend))
      have hkind := (hcond.resolve_left hpend).resolve_left hqend
      exact Or.inr (Or.inr ⟨i, by omega, by omega, htake, hkind⟩)
    · exact Or.inr (Or.inr hdiff)
  · have prefix_names : ∀ {p q : FieldRef}, p ≠ [] → p <+: q →
        ∃ i, i < p.length ∧ i < q.length ∧
          (p.take (i + 1)).map childName = (q.take (i + 1)).map childName ∧ i + 1 = p.length := by
      intro p q hp hpre
      obtain ⟨n, hn⟩ : ∃ n, p.length = n + 1 :=
        ⟨p.length - 1, by have := List.length_pos_of_ne_nil hp; omega⟩
      have hle := hpre.length_le
      refine ⟨n, by omega, by omega, ?_, hn.symm⟩
      rw [← hn, ← List.prefix_iff_eq_take.mp hpre, List.take_length]
    rintro (hpre | hpre | ⟨k, hkp, hkq, htake, hkind⟩)
    · obtain ⟨i, hi, hj, hnames, hend⟩ := prefix_names hp hpre
      exact ⟨i, hi, hj, hnames, Or.inl hend⟩
    · obtain ⟨i, hj, hi, hnames, hend⟩ := prefix_names hq hpre
      exact ⟨i, hi, hj, hnames.symm, Or.inr (Or.inl hend)⟩
    · exact ⟨k, by omega, by omega, by rw [htake], Or.inr (Or.inr hkind)⟩

/-! ## Conflicts of fields -/

/-- The paths a field places, by their parts: its path, or a `$rename`'s source and
destination. -/
def targetPaths (f : ModifierType × BSONElement V) : List FieldRef :=
  (targets f.1 f.2).map Prod.snd

/-- No path of one field conflicts with a path of the other. -/
def FieldsCompatible (f g : ModifierType × BSONElement V) : Prop :=
  ∀ p ∈ targetPaths f, ∀ q ∈ targetPaths g, ¬ PathsConflict p q

theorem fieldsCompatible_symm {f g : ModifierType × BSONElement V} :
    FieldsCompatible f g → FieldsCompatible g f :=
  fun h q hq p hp hconf => h p hp q hq (pathsConflict_comm hconf)

section Fields

variable [ToString V] {initModifier : ModifierType → BSONElement V → Option Status}
  {arrayFilters : List String} {type : ModifierType} {modExpr : BSONElement V}
  {fieldRef : FieldRef}

theorem PathChecked.ne_nil (hc : PathChecked initModifier arrayFilters type modExpr fieldRef) :
    fieldRef ≠ [] :=
  (isUpdatable_eq_none_iff.mp hc.updatable).1

/-- The first part of a checked path is no array filter identifier. -/
theorem PathChecked.first_ordinary (hc : PathChecked initModifier arrayFilters type modExpr fieldRef) :
    isArrayFilterIdentifier (fieldRef.getD 0 "") = false := by
  cases hfirst : isArrayFilterIdentifier (fieldRef.getD 0 "") with
  | false => rfl
  | true => exact absurd rfl (hc.filtersFound 0 (List.length_pos_of_ne_nil hc.ne_nil) hfirst).1

/-- The steps of a checked field are paths to place. -/
theorem FieldChecked.placed (hf : FieldChecked initModifier arrayFilters type modExpr) :
    ∀ s ∈ fieldSteps type modExpr, Placed UpdateNode.isLeaf s := by
  intro s hs
  obtain ⟨t, ht, rfl⟩ := List.mem_map.mp hs
  exact placed_pathSteps rfl (hf.targetsChecked t ht).ne_nil

/-- The paths of two checked fields conflict in the trie iff their parts do. -/
theorem FieldChecked.steps_compatible_iff {f g : ModifierType × BSONElement V}
    (hf : FieldChecked initModifier arrayFilters f.1 f.2)
    (hg : FieldChecked initModifier arrayFilters g.1 g.2) :
    (∀ s ∈ fieldSteps f.1 f.2, ∀ t ∈ fieldSteps g.1 g.2, ¬ Conflict UpdateNode.isLeaf s t) ↔
      FieldsCompatible f g := by
  simp only [fieldSteps, FieldsCompatible, targetPaths, List.forall_mem_map]
  refine forall₂_congr fun t ht => forall₂_congr fun u hu => not_congr ?_
  have ht' := hf.targetsChecked t ht
  have hu' := hg.targetsChecked u hu
  exact conflict_pathSteps_iff rfl rfl ht'.ne_nil hu'.ne_nil ht'.first_ordinary hu'.first_ordinary

/-- A field that goes through alone passes its checks, and its own paths do not conflict. -/
theorem fieldChecked_of_isOk {f : ModifierType × BSONElement V}
    (h : (parseAndMerge initModifier arrayFilters f.1 f.2 PathTrie.empty ∅).isOk) :
    FieldChecked initModifier arrayFilters f.1 f.2 ∧
      (fieldSteps f.1 f.2).Pairwise fun s t => ¬ Conflict UpdateNode.isLeaf s t := by
  obtain ⟨r, hr⟩ := Except.isOk_iff.mp h
  obtain ⟨hf, hfits, -⟩ := (parseAndMerge_eq_ok_iff initModifier arrayFilters).mp hr
  rw [← unionAll_nil, fitsSeq_unionAll_iff hf.placed List.Pairwise.nil, List.nil_append] at hfits
  exact ⟨hf, hfits⟩

variable {fields : List (ModifierType × BSONElement V)}

/-- The paths of fields that each go through alone conflict nowhere iff no two fields
conflict. -/
theorem pairwise_flatMap_fieldSteps_iff
    (halone : ∀ f ∈ fields, (parseAndMerge initModifier arrayFilters f.1 f.2 PathTrie.empty ∅).isOk) :
    (fields.flatMap fun f => fieldSteps f.1 f.2).Pairwise
        (fun s t => ¬ Conflict UpdateNode.isLeaf s t) ↔
      fields.Pairwise FieldsCompatible := by
  rw [List.pairwise_flatMap]
  have hown := fun f hf => (fieldChecked_of_isOk (halone f hf)).2
  rw [List.Pairwise.iff_of_mem fun hf hg => FieldChecked.steps_compatible_iff
    (fieldChecked_of_isOk (halone _ hf)).1 (fieldChecked_of_isOk (halone _ hg)).1]
  exact and_iff_right hown

/-- **The fields of an update that each go through alone** go through together iff no two of
them conflict.  The update then reports whether any is positional, and its tree and identifiers
are those of all the fields together. -/
theorem parseAndMergeAll_empty_eq_ok_iff
    (halone : ∀ f ∈ fields, (parseAndMerge initModifier arrayFilters f.1 f.2 PathTrie.empty ∅).isOk)
    {r : Bool × UpdateTree V × Finset String} :
    parseAndMergeAll initModifier arrayFilters fields PathTrie.empty ∅ = .ok r ↔
      fields.Pairwise FieldsCompatible ∧
        r = (fields.any (fun f => fieldPositional f.1 f.2),
          unionAll (fields.flatMap fun f => fieldSteps f.1 f.2),
          (fields.flatMap fun f => fieldIdentifiers f.1 f.2).toFinset) := by
  have hchecked := fun f hf => (fieldChecked_of_isOk (halone f hf)).1
  have hplaced : ∀ s ∈ fields.flatMap (fun f => fieldSteps f.1 f.2), Placed UpdateNode.isLeaf s := by
    intro s hs
    obtain ⟨f, hf, hs⟩ := List.mem_flatMap.mp hs
    exact (hchecked f hf).placed s hs
  rw [parseAndMergeAll_eq_ok_iff, ← unionAll_nil, fitsSeq_unionAll_iff hplaced List.Pairwise.nil,
    List.nil_append, pairwise_flatMap_fieldSteps_iff halone, unionFrom_unionAll, List.nil_append,
    Finset.empty_union]
  exact and_iff_right hchecked

/-- Whether fields that each go through alone go through together. -/
theorem parseAndMergeAll_empty_isOk_iff
    (halone : ∀ f ∈ fields, (parseAndMerge initModifier arrayFilters f.1 f.2 PathTrie.empty ∅).isOk) :
    (parseAndMergeAll initModifier arrayFilters fields PathTrie.empty ∅).isOk ↔
      fields.Pairwise FieldsCompatible := by
  rw [Except.isOk_iff]
  constructor
  · rintro ⟨r, hr⟩
    exact ((parseAndMergeAll_empty_eq_ok_iff halone).mp hr).1
  · intro hcompat
    exact ⟨_, (parseAndMergeAll_empty_eq_ok_iff halone).mpr ⟨hcompat, rfl⟩⟩

theorem parseAndMergeAll_conflicts_spec (fields : List (ModifierType × BSONElement V))
    (halone : ∀ f ∈ fields, (parseAndMerge initModifier arrayFilters f.1 f.2 PathTrie.empty ∅).isOk) :
    ((parseAndMergeAll initModifier arrayFilters fields PathTrie.empty ∅).isOk ↔
        fields.Pairwise fun f g => ∀ p ∈ targetPaths f, ∀ q ∈ targetPaths g, ¬ PathsConflict p q) ∧
      ∀ fields', fields'.Perm fields →
        (parseAndMergeAll initModifier arrayFilters fields' PathTrie.empty ∅).toOption =
          (parseAndMergeAll initModifier arrayFilters fields PathTrie.empty ∅).toOption := by
  refine ⟨parseAndMergeAll_empty_isOk_iff halone, fun fields' hperm => ?_⟩
  have halone' : ∀ f ∈ fields', (parseAndMerge initModifier arrayFilters f.1 f.2
      PathTrie.empty ∅).isOk := fun f hf => halone f (hperm.mem_iff.mp hf)
  have hcompat_iff : fields'.Pairwise FieldsCompatible ↔ fields.Pairwise FieldsCompatible :=
    hperm.pairwise_iff fieldsCompatible_symm
  by_cases hcompat : fields.Pairwise FieldsCompatible
  · rw [(parseAndMergeAll_empty_eq_ok_iff halone).mpr ⟨hcompat, rfl⟩,
      (parseAndMergeAll_empty_eq_ok_iff halone').mpr ⟨hcompat_iff.mpr hcompat, rfl⟩,
      Except.toOption_ok, Except.toOption_ok, Option.some.injEq, Prod.mk.injEq, Prod.mk.injEq]
    have hsteps := hperm.flatMap_right fun f => fieldSteps f.1 f.2
    refine ⟨?_, ?_, List.toFinset_eq_of_perm _ _ (hperm.flatMap_right _)⟩
    · exact Bool.eq_iff_iff.mpr (by simp only [List.any_eq_true, hperm.mem_iff])
    · exact unionAll_congr
        (agree_of_pairwise ((pairwise_flatMap_fieldSteps_iff halone').mpr
          (hcompat_iff.mpr hcompat)))
        (agree_of_pairwise ((pairwise_flatMap_fieldSteps_iff halone).mpr hcompat))
        fun s => hsteps.mem_iff
  · have hfail : ∀ {fs : List (ModifierType × BSONElement V)},
        (∀ f ∈ fs, (parseAndMerge initModifier arrayFilters f.1 f.2 PathTrie.empty ∅).isOk) →
        ¬ fs.Pairwise FieldsCompatible →
        (parseAndMergeAll initModifier arrayFilters fs PathTrie.empty ∅).toOption = none :=
      fun halone hnot => Except.toOption_eq_none_iff.mpr
        (Bool.eq_false_iff.mpr fun h => hnot ((parseAndMergeAll_empty_isOk_iff halone).mp h))
    rw [hfail halone hcompat, hfail halone' (mt hcompat_iff.mp hcompat)]

/-- A `$set` under an array filter and a `$rename` elsewhere. -/
def setAndRename : List (ModifierType × BSONElement ℕ) :=
  [(.modSet, ⟨"a.$[i].x", .other 1⟩), (.modRename, ⟨"c", .string "d"⟩)]

theorem parseAndMergeAll_conflicts_spec_setAndRename :
    (∀ f ∈ setAndRename,
      (parseAndMerge (fun _ _ => none) ["i"] f.1 f.2 PathTrie.empty ∅).isOk) ∧
    (((parseAndMergeAll (fun _ _ => none) ["i"] setAndRename PathTrie.empty ∅).isOk ↔
        setAndRename.Pairwise fun f g =>
          ∀ p ∈ targetPaths f, ∀ q ∈ targetPaths g, ¬ PathsConflict p q) ∧
      ∀ fields', fields'.Perm setAndRename →
        (parseAndMergeAll (fun _ _ => none) ["i"] fields' PathTrie.empty ∅).toOption =
          (parseAndMergeAll (fun _ _ => none) ["i"] setAndRename PathTrie.empty ∅).toOption) :=
  ⟨by decide, parseAndMergeAll_conflicts_spec setAndRename (by decide)⟩

/-- `a.$[i].x` and `a.b`: neither path is a prefix of the other. -/
def arrayAndObject : List (ModifierType × BSONElement ℕ) :=
  [(.modSet, ⟨"a.$[i].x", .other 1⟩), (.modSet, ⟨"a.b", .other 2⟩)]

/-- Two fields that each go through alone, with no path a prefix of another, conflict in both
orders: the node at `a` is an `UpdateArrayNode` for one and an `UpdateObjectNode` for the
other. -/
theorem parseAndMergeAll_arrayFilter_conflict :
    (∀ f ∈ arrayAndObject,
      (parseAndMerge (fun _ _ => none) ["i"] f.1 f.2 PathTrie.empty ∅).isOk) ∧
    (∀ f ∈ arrayAndObject, ∀ g ∈ arrayAndObject, f ≠ g →
      ∀ p ∈ targetPaths f, ∀ q ∈ targetPaths g, ¬ p <+: q) ∧
    parseAndMergeAll (fun _ _ => none) ["i"] arrayAndObject PathTrie.empty ∅ =
      .error ⟨.conflictingUpdateOperators, "Updating the path 'a.b' would create a conflict at 'a'"⟩ ∧
    parseAndMergeAll (fun _ _ => none) ["i"] arrayAndObject.reverse PathTrie.empty ∅ =
      .error ⟨.conflictingUpdateOperators,
        "Updating the path 'a.$[i].x' would create a conflict at 'a'"⟩ :=
  ⟨by decide, by decide, rfl, rfl⟩

end Fields

end Update
end Mongo
