import QueryDocument.Value

/-!
Why a node cannot be built. An error names its cause; `message` words it.
-/
namespace QueryDocument

/-- What lacks its name. -/
inductive NameRole where
  | argument
  | directive
  | field
  | fieldAlias
  | fragmentDefinition
  | fragmentSpread
  | operation
  | variableName
  deriving DecidableEq

/-- What lacks its type. -/
inductive TypeRole where
  | definition
  | ofVariable (name : String)
  | ofFragment (name : String)
  deriving DecidableEq

inductive BuildError where
  | missingName (role : NameRole)
  | missingSelection (typeCondition : Option String)
  | missingType (role : TypeRole)
  | unsupportedDirective (shape : Value)
  | unsupportedVariable (shape : Value)

def NameRole.text : NameRole → String
  | .argument => "argument"
  | .directive => "directive"
  | .field => "field"
  | .fieldAlias => "field alias"
  | .fragmentDefinition => "fragment definition"
  | .fragmentSpread => "fragment spread"
  | .operation => "operation"
  | .variableName => "variable"

def TypeRole.text : TypeRole → String
  | .definition => "variable definition"
  | .ofVariable name => "variable `$" ++ name ++ "`"
  | .ofFragment name => "fragment `" ++ name ++ "`"

def BuildError.message : BuildError → String
  | .missingName role => "A name must be specified for this " ++ role.text
  | .missingSelection none =>
    "Inline fragments must declare at least one selection (type condition: `None`)"
  | .missingSelection (some type) =>
    "Inline fragments must declare at least one selection (type condition: `Some("
      ++ Text.inspect type ++ ")`)"
  | .missingType role => "A type must be specified for " ++ role.text
  | .unsupportedDirective shape => "Unsupported directive shape: `" ++ shape.inspect ++ "`"
  | .unsupportedVariable shape =>
    "Unsupported variable definition shape: `" ++ shape.inspect ++ "`"

end QueryDocument
