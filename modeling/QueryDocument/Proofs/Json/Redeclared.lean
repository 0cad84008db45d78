import QueryDocument.Proofs.Construction.Lawful
import QueryDocument.Proofs.Json.Restored

/-!
Reading back operations and documents. The variables of an operation are declared anew, one by one
in their order: `Operation.redeclared` is what this leads to.
-/
namespace QueryDocument

open Json

namespace Operation

/-- The operation whose variables were declared once more under the names they are kept by. -/
def redeclared (o : Operation) : Built Operation :=
  if o.declared.any fun d => (bareName d.1).isEmpty then .error (.missingName .variableName)
  else .ok { o with declared := Keyed.ofPairs (o.declared.map fun d => (bareName d.1, d.2)) }

example : redeclared { kind := .query, declared := [("$", { type := "Int" })] } =
    .error (.missingName .variableName) := rfl

/-- What is read of the JSON form of an operation. -/
def restored (o : Operation) : Reads Operation :=
  if o.isFinite then Layer.built o.redeclared else .error .malformed

end Operation

theorem OperationKind.read_toJson (k : OperationKind) (s : Strictness) :
    k.toJson.read s .kind = onlyIf true k := by
  cases k <;> rfl

theorem read_wellFormedSelections {ss : List Selection} (h : ∀ x ∈ ss, x.WellFormed)
    (s : Strictness) : (Json.array (Selection.allToJson ss)).read s (.list .selection) =
      onlyIf (ss.all Selection.isFinite) ss := by
  rw [← Selection.allFinite_eq_all]
  exact read_selections fun x hx => Selection.read_toJson x (h x hx) s

/-- A fragment definition is read back as it was, if its floats are finite. -/
theorem FragmentDefinition.read_members {f : FragmentDefinition} (h : f.WellFormed)
    (s : Strictness) :
    (Json.record f.members).read s .fragmentDefinition = onlyIf f.isFinite f := by
  have hstruct := (Held.cons "directives" (read_directives h.directives s)
    (.cons "name" (read_text f.name s)
      (.cons "selection_set" (read_wellFormedSelections h.selections s)
        (.cons "type_condition" (read_text f.typeCondition s) .nil)))).struct (by decide)
  change Layer.toFragmentDefinition (recordLayer [("directives", _), ("name", _),
    ("selection_set", _), ("type_condition", _)] s) = _
  rw [Layer.toFragmentDefinition, hstruct]
  refine (onlyIf_bind (q := true) (b := f) ?_).trans ?_
  · dsimp only
    rw [FragmentDefinition.new_of_ne h.named h.typed]
    rfl
  · simp [isFinite]

/-- An operation is read back but for its variables, which are declared once more. -/
theorem Operation.read_members {o : Operation} (h : o.WellFormed) (s : Strictness) :
    (Json.record o.members).read s .operation = o.restored := by
  have hdeclared : (Json.ofKeyed VariableDefinition.toJson o.declared).read s
      (.keyed .variableDefinition) = onlyIf (o.declared.all fun d => d.2.isFinite) o.declared :=
    read_keyed h.distinct fun d hd => VariableDefinition.read_toJson (h.declarations d hd) s
  have hstruct := (Held.cons "directives" (read_directives h.directives s)
    (.cons "kind" (o.kind.read_toJson s) (.cons "name" (read_texts o.name s)
      (.cons "selection_set" (read_wellFormedSelections h.selections s)
        (.cons "variable_definitions" hdeclared .nil))))).struct (by decide)
  change Layer.toOperation (recordLayer [("directives", _), ("kind", _), ("name", _),
    ("selection_set", _), ("variable_definitions", _)] s) = _
  have hfinite : (o.directives.all Directive.isFinite && (true && (true &&
      (o.selections.all Selection.isFinite &&
        ((o.declared.all fun d => d.2.isFinite) && true))))) = o.isFinite := by
    simp [isFinite, Bool.and_assoc]
  rw [Layer.toOperation, hstruct, hfinite, restored]
  cases o.isFinite with
  | false => rfl
  | true =>
    rw [onlyIf_true, Outcome.ok_bind, if_pos rfl]
    dsimp only
    rw [Operation.new_of_ne h.named, Outcome.ok_bind, made_declareAll, redeclared]
    cases o.declared.any fun d => (bareName d.1).isEmpty <;> rfl

def Definition.restored : Definition → Reads Definition
  | .fragment f => onlyIf f.isFinite (.fragment f)
  | .operation o => .operation <$> o.restored
  | .unknown => .ok .unknown

def Document.restored (d : Document) : Reads Document := do
  let definitions ← d.definitions.mapM Definition.restored
  pure { definitions }

/-- No member has the key of the tag. -/
theorem FragmentDefinition.keys_ne_node (f : FragmentDefinition) :
    ∀ m ∈ f.members, m.1 ≠ "node" := by
  simp [members]

theorem Operation.keys_ne_node (o : Operation) : ∀ m ∈ o.members, m.1 ≠ "node" := by
  simp [members]

/-- An unknown definition is written and read back as unknown. -/
theorem Definition.read_toJson {d : Definition} (h : d.WellFormed) (s : Strictness) :
    d.toJson.read s .definition = d.restored := by
  cases d with
  | fragment f =>
    have hread : (Definition.fragment f).toJson.read s .definition =
        .fragment <$> (Json.record f.members).read .lenient .fragmentDefinition :=
      read_definition f.keys_ne_node f.sound_members s
    rw [hread, FragmentDefinition.read_members h, map_onlyIf, restored]
  | operation o =>
    have hread : (Definition.operation o).toJson.read s .definition =
        .operation <$> (Json.record o.members).read .lenient .operation :=
      read_definition o.keys_ne_node o.sound_members s
    rw [hread, Operation.read_members h, restored]
  | unknown => exact read_definition (by simp) (by simp) s

theorem Document.read_toJson {d : Document} (h : d.WellFormed) (s : Strictness) :
    d.toJson.read s .document = d.restored := by
  have hdefinitions : (Json.array (d.definitions.map Definition.toJson)).read s
      (.list .definition) = d.definitions.mapM Definition.restored := by
    rw [read_list, List.mapM_map]
    exact Outcome.mapM_congr fun x hx => Definition.read_toJson (h x hx) s
  change Layer.toDocument (recordLayer [("definitions", _)] s) = _
  rw [Layer.toDocument, struct_record rfl (by decide), List.map_cons, Schema.inOrder,
    hdefinitions, restored]
  cases d.definitions.mapM Definition.restored <;> rfl

end QueryDocument
