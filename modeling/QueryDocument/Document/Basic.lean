import QueryDocument.VariableDefinition

/-!
Executable documents as trees: operations and fragment definitions, and below them selections, which
are fields, spreads of fragments, and fragments written in place. A node of a kind that this library
does not know stands in the tree as `unknown`.
-/
namespace QueryDocument

inductive OperationKind where
  | mutation
  | query
  | subscription
  deriving DecidableEq

structure FragmentSpread where
  name : String
  directives : List Directive := []

mutual

/-- A field may be selected under another name, its `label`. -/
structure Field where
  name : String
  label : Option String := none
  arguments : List (String × Value) := []
  directives : List Directive := []
  selections : List Selection := []

structure InlineFragment where
  typeCondition : Option String := none
  directives : List Directive := []
  selections : List Selection := []

inductive Selection where
  | field (f : Field)
  | spread (s : FragmentSpread)
  | inlineFragment (f : InlineFragment)
  | unknown

end

structure FragmentDefinition where
  name : String
  typeCondition : String
  directives : List Directive := []
  selections : List Selection := []

/-- The variables it has `declared` are kept by name. -/
structure Operation where
  kind : OperationKind
  name : Option String := none
  declared : List (String × VariableDefinition) := []
  directives : List Directive := []
  selections : List Selection := []

inductive Definition where
  | fragment (f : FragmentDefinition)
  | operation (o : Operation)
  | unknown

structure Document where
  definitions : List Definition := []

/-- Any node that can be rendered by itself. -/
inductive Node where
  | document (d : Document)
  | field (f : Field)
  | fragmentDefinition (f : FragmentDefinition)
  | fragmentSpread (s : FragmentSpread)
  | inlineFragment (f : InlineFragment)
  | operation (o : Operation)

/-- The keyword that introduces an operation. -/
def OperationKind.keyword : OperationKind → String
  | .mutation => "mutation"
  | .query => "query"
  | .subscription => "subscription"

/-- The name under which the field's result appears. -/
def Field.selectedName (f : Field) : String := f.label.getD f.name

def Selection.name? : Selection → Option String
  | .field f => some f.name
  | .spread s => some s.name
  | .inlineFragment _ => none
  | .unknown => none

namespace Node

def kindName : Node → String
  | .document _ => "document"
  | .field _ => "field"
  | .fragmentDefinition _ => "fragment definition"
  | .fragmentSpread _ => "fragment spread"
  | .inlineFragment _ => "inline fragment"
  | .operation _ => "operation"

def name? : Node → Option String
  | .document _ => none
  | .field f => some f.name
  | .fragmentDefinition f => some f.name
  | .fragmentSpread s => some s.name
  | .inlineFragment _ => none
  | .operation o => o.name

end Node
end QueryDocument
