import QueryDocument.Document.Basic

/-!
Building nodes piece by piece. A change checks what it is given before it writes, so that it leaves
its node alone when it fails, but for `Operation.setVariables`, which writes as it goes and keeps
what it had declared by then.
-/
namespace QueryDocument

/-- What may be built, or why not. -/
abbrev Built := Except BuildError

/-- A change to a node under construction. What it has written stays written when it fails. -/
abbrev Change (σ : Type) := EStateM BuildError σ

instance {σ : Type} : MonadLift Built (Change σ) where
  monadLift
    | .ok a => pure a
    | .error e => throw e

namespace Change

variable {σ : Type}

/-- The node that is left, whether the change failed or not. -/
def left (c : Change σ Unit) (s : σ) : σ :=
  match c s with
  | .ok _ s' => s'
  | .error _ s' => s'

def failure (c : Change σ Unit) (s : σ) : Option BuildError :=
  match c s with
  | .ok _ _ => none
  | .error e _ => some e

/-- What the change makes of the node, if it does not fail. -/
def made (c : Change σ Unit) (s : σ) : Built σ :=
  match c s with
  | .ok _ s' => .ok s'
  | .error e _ => .error e

end Change

/-- A node that holds directives. -/
class Annotated (σ : Type) where
  annotate : Directive → σ → σ

/-- A node that holds selections. -/
class Selecting (σ : Type) where
  select : Selection → σ → σ

instance : Annotated FragmentSpread := ⟨fun d s => { s with directives := s.directives ++ [d] }⟩
instance : Annotated Field := ⟨fun d f => { f with directives := f.directives ++ [d] }⟩
instance : Annotated InlineFragment := ⟨fun d f => { f with directives := f.directives ++ [d] }⟩
instance : Annotated FragmentDefinition :=
  ⟨fun d f => { f with directives := f.directives ++ [d] }⟩
instance : Annotated Operation := ⟨fun d o => { o with directives := o.directives ++ [d] }⟩

instance : Selecting Field := ⟨fun s f => { f with selections := f.selections ++ [s] }⟩
instance : Selecting InlineFragment := ⟨fun s f => { f with selections := f.selections ++ [s] }⟩
instance : Selecting FragmentDefinition :=
  ⟨fun s f => { f with selections := f.selections ++ [s] }⟩
instance : Selecting Operation := ⟨fun s o => { o with selections := o.selections ++ [s] }⟩

def addDirective {σ : Type} [Annotated σ] (shape : DirectiveShape) : Change σ Unit := do
  let d ← Directive.ofShape shape
  modify (Annotated.annotate d)

namespace Field

def new (name : String) : Built Field :=
  if name.isEmpty then .error (.missingName .field) else .ok { name }

def setLabel (label : String) : Change Field Unit :=
  if label.isEmpty then throw (.missingName .fieldAlias)
  else modify fun f => { f with label := some label }

/-- An argument that is there already keeps its place. -/
def addArgument (name : String) (v : Value) : Change Field Unit :=
  if name.isEmpty then throw (.missingName .argument)
  else modify fun f => { f with arguments := Keyed.insert name v f.arguments }

def setArguments (args : Arguments) : Change Field Unit := do
  checkArguments args
  modify fun f => { f with arguments := args }

end Field

namespace FragmentSpread

def new (name : String) : Built FragmentSpread :=
  if name.isEmpty then .error (.missingName .fragmentSpread) else .ok { name }

def withDirectives (name : String) (shapes : List DirectiveShape) : Built FragmentSpread := do
  let s ← new name
  let directives ← Directive.ofShapes shapes
  pure { s with directives }

end FragmentSpread

namespace InlineFragment

/-- An empty type condition is none. -/
def new (type : Option String) : InlineFragment :=
  { typeCondition := type.filter fun t => !t.isEmpty }

/-- What a block leaves behind must have a selection. -/
def close (f : InlineFragment) : Built InlineFragment :=
  if f.selections.isEmpty then .error (.missingSelection f.typeCondition) else .ok f

end InlineFragment

namespace FragmentDefinition

def new (name type : String) : Built FragmentDefinition :=
  if name.isEmpty then .error (.missingName .fragmentDefinition)
  else if type.isEmpty then .error (.missingType (.ofFragment name))
  else .ok { name, typeCondition := type }

end FragmentDefinition

namespace Operation

def new (kind : OperationKind) (name : Option String) : Built Operation :=
  match name with
  | some "" => .error (.missingName .operation)
  | _ => .ok { kind, name }

/-- The key under which a variable is declared: its name without one dollar sign. -/
def variableKey (name : String) : Built String :=
  if (bareName name).isEmpty then .error (.missingName .variableName) else .ok (bareName name)

/-- A missing type is reported with the variable that lacks it. -/
def typeFault (key : String) : BuildError → BuildError
  | .missingType _ => .missingType (.ofVariable key)
  | e => e

/-- A variable that is declared already keeps its place. -/
def declare (name : String) (d : VariableDefinition) : Change Operation Unit := do
  let key ← variableKey name
  modify fun o => { o with declared := Keyed.insert key d o.declared }

def declareAll (ds : Keyed VariableDefinition) : Change Operation Unit :=
  forM ds fun d => declare d.1 d.2

/-- Checks the name before the shape. -/
def addVariable (name : String) (shape : VariableShape) : Change Operation Unit := do
  let key ← variableKey name
  let d ← (VariableDefinition.ofShape shape).mapError (typeFault key)
  modify fun o => { o with declared := Keyed.insert key d o.declared }

/-- Declares the variables one by one, up to the first that fails. -/
def addVariables (ds : List (String × VariableShape)) : Change Operation Unit :=
  forM ds fun d => addVariable d.1 d.2

/-- Forgets all variables, then declares the given ones. -/
def setVariables (ds : List (String × VariableShape)) : Change Operation Unit := do
  modify fun o => { o with declared := [] }
  addVariables ds

def setDirectives (shapes : List DirectiveShape) : Change Operation Unit := do
  let directives ← Directive.ofShapes shapes
  modify fun o => { o with directives }

end Operation

namespace Document

def add (d : Definition) (doc : Document) : Document :=
  { doc with definitions := doc.definitions ++ [d] }

end Document
end QueryDocument
