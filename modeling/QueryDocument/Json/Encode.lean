import QueryDocument.Document.Basic
import QueryDocument.Json.Tree

/-!
The JSON form of values and of document nodes. A value is an object whose only key names its case,
a node an object of its attributes in alphabetical order; where nodes of several kinds can stand,
the key `node` comes first and tells them apart. A float that is no finite number is written as
null, from which it cannot be read back.
-/
namespace QueryDocument

namespace Value

def ofFloat (x : Binary64) : Json := if x.isFinite then .number (some (.float x)) else .null

mutual
def toJson : Value → Json
  | .bool b => .record [("Boolean", .bool b)]
  | .enum name => .record [("Enum", .text name)]
  | .float x => .record [("Float", ofFloat x)]
  | .int n => .record [("Int", .number (some (.integer n.toInt)))]
  | .list items => .record [("List", .array (itemsToJson items))]
  | .null => .text "Null"
  | .object fields => .record [("Object", .object (fieldsToJson fields))]
  | .string text => .record [("String", .text text)]
  | .var name => .record [("Variable", .text name)]

def itemsToJson : List Value → List Json
  | [] => []
  | v :: vs => v.toJson :: itemsToJson vs

def fieldsToJson : List (String × Value) → List (Option String × Json)
  | [] => []
  | (k, v) :: fs => (some k, v.toJson) :: fieldsToJson fs
end

theorem itemsToJson_eq_map (vs : List Value) : itemsToJson vs = vs.map toJson := by
  induction vs with
  | nil => rfl
  | cons v vs ih => simp [itemsToJson, ih]

theorem fieldsToJson_eq_map (fs : List (String × Value)) :
    fieldsToJson fs = fs.map fun f => (some f.1, f.2.toJson) := by
  induction fs with
  | nil => rfl
  | cons f fs ih => simp [fieldsToJson, ih]

end Value

namespace Json

def ofOption (f : α → Json) : Option α → Json
  | none => .null
  | some a => f a

def ofKeyed (f : α → Json) (es : Keyed α) : Json := .object (es.map fun e => (some e.1, f e.2))

end Json

def Directive.toJson (d : Directive) : Json :=
  .record [("arguments", .object (Value.fieldsToJson d.arguments)), ("name", .text d.name)]

def directivesToJson (ds : List Directive) : Json := .array (ds.map Directive.toJson)

def VariableDefinition.toJson (d : VariableDefinition) : Json :=
  .record [("default_value", .ofOption Value.toJson d.default),
    ("directives", directivesToJson d.directives), ("type_annotation", .text d.type)]

def OperationKind.jsonName : OperationKind → String
  | .mutation => "Mutation"
  | .query => "Query"
  | .subscription => "Subscription"

def OperationKind.toJson (k : OperationKind) : Json := .text k.jsonName

/-- Puts the key that tells nodes apart before the attributes of a node. -/
def taggedNode (tag : String) (members : List (String × Json)) : Json :=
  .record (("node", .text tag) :: members)

def FragmentSpread.members (s : FragmentSpread) : List (String × Json) :=
  [("directives", directivesToJson s.directives), ("name", .text s.name)]

mutual
def Field.members : Field → List (String × Json)
  | ⟨name, label, args, ds, ss⟩ =>
    [("alias", .ofOption .text label), ("arguments", .object (Value.fieldsToJson args)),
      ("directives", directivesToJson ds), ("name", .text name),
      ("selection_set", .array (Selection.allToJson ss))]

def InlineFragment.members : InlineFragment → List (String × Json)
  | ⟨type, ds, ss⟩ =>
    [("directives", directivesToJson ds), ("selection_set", .array (Selection.allToJson ss)),
      ("type_condition", .ofOption .text type)]

def Selection.toJson : Selection → Json
  | .field f => taggedNode "field" f.members
  | .spread s => taggedNode "fragment_spread" s.members
  | .inlineFragment f => taggedNode "inline_fragment" f.members
  | .unknown => taggedNode "unknown" []

def Selection.allToJson : List Selection → List Json
  | [] => []
  | s :: ss => s.toJson :: Selection.allToJson ss
end

theorem Selection.allToJson_eq_map (ss : List Selection) :
    Selection.allToJson ss = ss.map Selection.toJson := by
  induction ss with
  | nil => rfl
  | cons s ss ih => simp [Selection.allToJson, ih]

def FragmentDefinition.members (f : FragmentDefinition) : List (String × Json) :=
  [("directives", directivesToJson f.directives), ("name", .text f.name),
    ("selection_set", .array (Selection.allToJson f.selections)),
    ("type_condition", .text f.typeCondition)]

def Operation.members (o : Operation) : List (String × Json) :=
  [("directives", directivesToJson o.directives), ("kind", o.kind.toJson),
    ("name", .ofOption .text o.name),
    ("selection_set", .array (Selection.allToJson o.selections)),
    ("variable_definitions", .ofKeyed VariableDefinition.toJson o.declared)]

def Definition.toJson : Definition → Json
  | .fragment f => taggedNode "fragment" f.members
  | .operation o => taggedNode "operation" o.members
  | .unknown => taggedNode "unknown" []

def Document.toJson (d : Document) : Json :=
  .record [("definitions", .array (d.definitions.map Definition.toJson))]

def Node.toJson : Node → Json
  | .document d => d.toJson
  | .field f => .record f.members
  | .fragmentDefinition f => .record f.members
  | .fragmentSpread s => .record s.members
  | .inlineFragment f => .record f.members
  | .operation o => .record o.members

end QueryDocument
