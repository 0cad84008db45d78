import QueryDocument.Proofs.Document.Equivalence

/-!
A well-formed tree holds each key once in each of its maps. If all its floats are finite, it is
equal to itself.
-/
namespace QueryDocument

theorem Binary64.isNaN_of_isFinite {x : Binary64} (h : x.isFinite = true) : x.isNaN = false := by
  simp only [isFinite, isNaN, decide_eq_true_eq, decide_eq_false_iff_not] at *
  omega

theorem numeric_of_finite {xs : List Binary64} (h : xs.all Binary64.isFinite = true) :
    Numeric xs := fun x hx => x.isNaN_of_isFinite (List.all_eq_true.1 h x hx)

/-- A tree has one canonical form, so only a NaN keeps it from being equal to itself. -/
theorem Compares.refl {α : Type} [BEq α] {floats : α → List Binary64} {canonical : α → α} {x : α}
    (h : Compares floats canonical x x) (hx : Numeric (floats x)) : (x == x) = true :=
  h.2 ⟨hx, hx, rfl⟩

namespace Value

mutual
/-- The check for finite floats looks at all floats that are compared. -/
theorem isFinite_eq_floats : (v : Value) → v.isFinite = v.floats.all Binary64.isFinite
  | .bool _ | .enum _ | .int _ | .null | .string _ | .var _ => rfl
  | .float x => (Bool.and_true x.isFinite).symm
  | .list items => itemsFinite_eq_floats items
  | .object fields => fieldsFinite_eq_floats fields

theorem itemsFinite_eq_floats :
    (vs : List Value) → itemsFinite vs = (floatsOfItems vs).all Binary64.isFinite
  | [] => rfl
  | v :: vs => by
    rw [itemsFinite, floatsOfItems, List.all_append, isFinite_eq_floats v,
      itemsFinite_eq_floats vs]

theorem fieldsFinite_eq_floats : (fs : List (String × Value)) →
    fieldsFinite fs = (floatsOfFields fs).all Binary64.isFinite
  | [] => rfl
  | (_, v) :: fs => by
    rw [fieldsFinite, floatsOfFields, List.all_append, isFinite_eq_floats v,
      fieldsFinite_eq_floats fs]
end

end Value

theorem all_flatMap {α : Type} {finite : α → Bool} {floats : α → List Binary64}
    (h : ∀ x, finite x = (floats x).all Binary64.isFinite) (xs : List α) :
    xs.all finite = (xs.flatMap floats).all Binary64.isFinite := by
  rw [List.all_flatMap]
  exact congrArg xs.all (funext h)

theorem Directive.isFinite_eq_floats (d : Directive) :
    d.isFinite = d.floats.all Binary64.isFinite := Value.fieldsFinite_eq_floats d.arguments

theorem VariableDefinition.isFinite_eq_floats (d : VariableDefinition) :
    d.isFinite = d.floats.all Binary64.isFinite := by
  rw [isFinite, floats, List.all_append, all_flatMap Directive.isFinite_eq_floats,
    ← all_flatMap Value.isFinite_eq_floats]
  cases d.default <;> simp

mutual
/-- None of the floats of a field is passed over, at any depth. -/
theorem Field.isFinite_eq_floats : (f : Field) → f.isFinite = f.floats.all Binary64.isFinite
  | ⟨_, _, args, ds, ss⟩ => by
    rw [Field.isFinite, Field.floats, List.all_append, List.all_append,
      Value.fieldsFinite_eq_floats, all_flatMap Directive.isFinite_eq_floats,
      Selection.allFinite_eq_floats ss]

theorem InlineFragment.isFinite_eq_floats :
    (f : InlineFragment) → f.isFinite = f.floats.all Binary64.isFinite
  | ⟨_, ds, ss⟩ => by
    rw [InlineFragment.isFinite, InlineFragment.floats, List.all_append,
      all_flatMap Directive.isFinite_eq_floats, Selection.allFinite_eq_floats ss]

theorem Selection.isFinite_eq_floats :
    (s : Selection) → s.isFinite = s.floats.all Binary64.isFinite
  | .field f => by
    rw [Selection.isFinite, Selection.floats]
    exact Field.isFinite_eq_floats f
  | .spread s => by
    rw [Selection.isFinite, Selection.floats]
    exact all_flatMap Directive.isFinite_eq_floats s.directives
  | .inlineFragment f => by
    rw [Selection.isFinite, Selection.floats]
    exact InlineFragment.isFinite_eq_floats f
  | .unknown => by
    rw [Selection.isFinite, Selection.floats]
    rfl

theorem Selection.allFinite_eq_floats : (ss : List Selection) →
    Selection.allFinite ss = (Selection.floatsOfAll ss).all Binary64.isFinite
  | [] => by
    rw [Selection.allFinite, Selection.floatsOfAll]
    rfl
  | s :: ss => by
    rw [Selection.allFinite, Selection.floatsOfAll, List.all_append, Selection.isFinite_eq_floats s,
      Selection.allFinite_eq_floats ss]
end

theorem Definition.isFinite_eq_floats (d : Definition) :
    d.isFinite = d.floats.all Binary64.isFinite := by
  cases d with
  | fragment f =>
    change f.isFinite = f.floats.all Binary64.isFinite
    rw [FragmentDefinition.isFinite, FragmentDefinition.floats, List.all_append,
      all_flatMap Directive.isFinite_eq_floats, all_flatMap Selection.isFinite_eq_floats]
  | operation o =>
    change o.isFinite = o.floats.all Binary64.isFinite
    rw [Operation.isFinite, Operation.floats, List.all_append, List.all_append,
      all_flatMap Directive.isFinite_eq_floats, all_flatMap Selection.isFinite_eq_floats,
      all_flatMap fun d : String × VariableDefinition => d.2.isFinite_eq_floats]
    exact (Bool.and_comm _ _).trans (Bool.and_assoc _ _ _).symm
  | unknown => rfl

theorem Node.isFinite_eq_floats (node : Node) :
    node.isFinite = node.floats.all Binary64.isFinite := by
  cases node with
  | document d => exact all_flatMap Definition.isFinite_eq_floats d.definitions
  | field f => exact f.isFinite_eq_floats
  | fragmentDefinition f => exact (Definition.fragment f).isFinite_eq_floats
  | fragmentSpread s => exact all_flatMap Directive.isFinite_eq_floats s.directives
  | inlineFragment f => exact f.isFinite_eq_floats
  | operation o => exact (Definition.operation o).isFinite_eq_floats

theorem Directive.WellFormed.toDistinct {d : Directive} (h : d.WellFormed) : d.Distinct :=
  h.arguments.toDistinct

theorem VariableDefinition.WellFormed.toDistinct {d : VariableDefinition} (h : d.WellFormed) :
    d.Distinct := ⟨h.default, fun x hx => (h.directives x hx).toDistinct⟩

theorem FragmentSpread.WellFormed.toDistinct {s : FragmentSpread} (h : s.WellFormed) : s.Distinct :=
  fun d hd => (h.directives d hd).toDistinct

mutual
/-- By recursion over the tree, since there are maps at every depth. -/
theorem Field.WellFormed.toDistinct : {f : Field} → f.WellFormed → f.Distinct
  | ⟨_, _, _, _, _⟩, ⟨_, _, hargs, hds, hss⟩ =>
    ⟨hargs.toDistinct, fun d hd => (hds d hd).toDistinct, Selection.WellFormedAll.toDistinct hss⟩

theorem InlineFragment.WellFormed.toDistinct : {f : InlineFragment} → f.WellFormed → f.Distinct
  | ⟨_, _, _⟩, ⟨_, hds, _, hss⟩ =>
    ⟨fun d hd => (hds d hd).toDistinct, Selection.WellFormedAll.toDistinct hss⟩

theorem Selection.WellFormed.toDistinct : {s : Selection} → s.WellFormed → s.Distinct
  | .field _, h => Field.WellFormed.toDistinct h
  | .spread _, h => FragmentSpread.WellFormed.toDistinct h
  | .inlineFragment _, h => InlineFragment.WellFormed.toDistinct h
  | .unknown, _ => trivial

theorem Selection.WellFormedAll.toDistinct :
    {ss : List Selection} → Selection.WellFormedAll ss → Selection.DistinctAll ss
  | [], _ => trivial
  | _ :: _, ⟨hs, hss⟩ =>
    ⟨Selection.WellFormed.toDistinct hs, Selection.WellFormedAll.toDistinct hss⟩
end

theorem FragmentDefinition.WellFormed.toDistinct {f : FragmentDefinition} (h : f.WellFormed) :
    f.Distinct :=
  ⟨fun d hd => (h.directives d hd).toDistinct, fun s hs => (h.selections s hs).toDistinct⟩

theorem Operation.WellFormed.toDistinct {o : Operation} (h : o.WellFormed) : o.Distinct :=
  ⟨h.distinct, fun d hd => (h.declarations d hd).toDistinct,
    fun d hd => (h.directives d hd).toDistinct, fun s hs => (h.selections s hs).toDistinct⟩

theorem Definition.WellFormed.toDistinct {d : Definition} (h : d.WellFormed) : d.Distinct := by
  cases d with
  | fragment f => exact FragmentDefinition.WellFormed.toDistinct h
  | operation o => exact Operation.WellFormed.toDistinct h
  | unknown => trivial

theorem Node.WellFormed.toDistinct {node : Node} (h : node.WellFormed) : node.Distinct := by
  cases node with
  | document d => exact fun x hx => (h x hx).toDistinct
  | field f => exact Field.WellFormed.toDistinct h
  | fragmentDefinition f => exact FragmentDefinition.WellFormed.toDistinct h
  | fragmentSpread s => exact FragmentSpread.WellFormed.toDistinct h
  | inlineFragment f => exact InlineFragment.WellFormed.toDistinct h
  | operation o => exact Operation.WellFormed.toDistinct h

theorem Directive.beq_self {d : Directive} (hd : d.WellFormed) (h : d.isFinite = true) :
    (d == d) = true :=
  (compares hd.toDistinct hd.toDistinct).refl (numeric_of_finite (d.isFinite_eq_floats ▸ h))

/-- With a NaN for its default a definition would not be equal to itself. -/
theorem VariableDefinition.eq_self {d : VariableDefinition} (hd : d.WellFormed)
    (h : d.isFinite = true) : d.eq d = true :=
  (compares hd.toDistinct hd.toDistinct).refl (numeric_of_finite (d.isFinite_eq_floats ▸ h))

theorem Node.eq_self {node : Node} (hd : node.WellFormed) (h : node.isFinite = true) :
    node.eq node = true :=
  (compares hd.toDistinct hd.toDistinct).refl (numeric_of_finite (node.isFinite_eq_floats ▸ h))

end QueryDocument
