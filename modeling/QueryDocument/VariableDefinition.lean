import QueryDocument.Directive

/-!
Variable definitions: a type, at choice a default value, and directives. No default and a default of
`null` are two things. The name stands outside, as the key in the operation's variables.
-/
namespace QueryDocument

structure VariableDefinition where
  type : String
  default : Option Value := none
  directives : List Directive := []

inductive VariableChange where
  | default (v : Value)
  | directive (shape : DirectiveShape)
  | directives (shapes : List DirectiveShape)

inductive VariableShape where
  | type (text : String)
  | withDefault (type : String) (default : Value)
  | full (type : String) (default : Value) (directives : List DirectiveShape)
  | value (v : Value)
  | built (shape : VariableShape)
  | changed (type : String) (changes : List VariableChange)

namespace VariableDefinition

def eqDefault : Option Value → Option Value → Bool
  | none, none => true
  | some a, some b => a == b
  | _, _ => false

def eq (a b : VariableDefinition) : Bool :=
  a.type == b.type && eqDefault a.default b.default && a.directives == b.directives

instance : BEq VariableDefinition := ⟨eq⟩

def new (type : String) : Except BuildError VariableDefinition :=
  if type.isEmpty then .error (.missingType .definition) else .ok { type }

def change (d : VariableDefinition) : VariableChange → Except BuildError VariableDefinition
  | .default v => .ok { d with default := some v }
  | .directive shape => do
    let new ← Directive.ofShape shape
    pure { d with directives := d.directives ++ [new] }
  | .directives shapes => do
    let directives ← Directive.ofShapes shapes
    pure { d with directives }

/-- The definition of a type slot and, where they are given, a default and a slot of directives, all
taken from `shape`. The type is checked first. -/
def ofSlots (shape : Value) (type : Option Value) (default directives : Option Value) :
    Except BuildError VariableDefinition := do
  let d ← match type with
    | none => new ""
    | some .null => new ""
    | some v =>
      match v.name? with
      | some text => new text
      | none => .error (.unsupportedVariable shape)
  let directives ← match directives with
    | none => .ok []
    | some (.list items) => items.mapM Directive.ofValue
    | some _ => .error (.unsupportedVariable shape)
  pure { d with default, directives }

/-- An enum value or a string is a type; a list holds type, default and directives, the last two at
choice; an object has them under the keys `type`, `default` and `directives`. -/
def ofValue (shape : Value) : Except BuildError VariableDefinition :=
  match shape with
  | .enum type => new type
  | .string type => new type
  | .list [type] => ofSlots shape (some type) none none
  | .list [type, default] => ofSlots shape (some type) (some default) none
  | .list [type, default, directives] =>
    ofSlots shape (some type) (some default) (some directives)
  | .object fields =>
    ofSlots shape (fields.lookup "type") (fields.lookup "default") (fields.lookup "directives")
  | _ => .error (.unsupportedVariable shape)

def ofShape : VariableShape → Except BuildError VariableDefinition
  | .type text => new text
  | .withDefault type default => do
    let d ← new type
    pure { d with default := some default }
  | .full type default directives => do
    let d ← new type
    let directives ← Directive.ofShapes directives
    pure { d with default := some default, directives }
  | .value v => ofValue v
  | .built shape => ofShape shape
  | .changed type changes => do
    let d ← new type
    changes.foldlM change d

end VariableDefinition
end QueryDocument
