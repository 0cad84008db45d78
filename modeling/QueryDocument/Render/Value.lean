import QueryDocument.Value
import QueryDocument.Text.Quoted
import QueryDocument.VariableDefinition

/-!
The text of values, argument lists, directives and variable definitions, and why a tree has no text.
In a constant position, which is a default value or an argument of a variable definition's
directive, a variable reference has no text.
-/
namespace QueryDocument

inductive UnknownRole where
  | definition
  | selection
  deriving DecidableEq

inductive ValueFault where
  | namelessEnum
  | namelessVariable
  | notFinite
  deriving DecidableEq

inductive RenderError where
  | constantContext (variableName : String)
  | unknownNode (role : UnknownRole)
  | unsupportedValue (fault : ValueFault) (value : Value)

def UnknownRole.text : UnknownRole → String
  | .definition => "definition"
  | .selection => "selection"

def ValueFault.reason : ValueFault → String
  | .namelessEnum => "enum values must have a name"
  | .namelessVariable => "variable references must have a name"
  | .notFinite => "GraphQL has no literal for NaN or infinite floats"

def RenderError.message : RenderError → String
  | .constantContext name =>
    "Variable `$" ++ name ++ "` was used where only constant values are allowed"
  | .unknownNode role => "Encountered an unknown " ++ role.text ++ " node while formatting"
  | .unsupportedValue fault value =>
    "Unsupported value `" ++ value.inspect ++ "`: " ++ fault.reason

abbrev Rendered := Except RenderError

namespace Value

mutual
def render (constant : Bool) : Value → Rendered String
  | .bool b => .ok (if b then "true" else "false")
  | .enum name =>
    if name.isEmpty then .error (.unsupportedValue .namelessEnum (.enum name)) else .ok name
  | .float x =>
    if x.isFinite then .ok x.text else .error (.unsupportedValue .notFinite (.float x))
  | .int n => .ok (toString n.toInt)
  | .list items => do
    let items ← renderItems constant items
    pure ("[" ++ ", ".intercalate items ++ "]")
  | .null => .ok "null"
  | .object fields => do
    let fields ← renderFields constant fields
    pure ("\x7b" ++ ", ".intercalate fields ++ "\x7d")
  | .string text => .ok (Text.asciiQuotation.quote text)
  | .var name =>
    if name.isEmpty then .error (.unsupportedValue .namelessVariable (.var name))
    else if constant then .error (.constantContext name)
    else .ok ("$" ++ name)

def renderItems (constant : Bool) : List Value → Rendered (List String)
  | [] => .ok []
  | v :: vs => do
    let text ← v.render constant
    let texts ← renderItems constant vs
    pure (text :: texts)

/-- Each as its key, a colon and its value; so are arguments written. -/
def renderFields (constant : Bool) : List (String × Value) → Rendered (List String)
  | [] => .ok []
  | (k, v) :: fs => do
    let text ← v.render constant
    let texts ← renderFields constant fs
    pure ((k ++ ": " ++ text) :: texts)
end

theorem renderFields_eq_mapM (constant : Bool) (fs : List (String × Value)) :
    renderFields constant fs = fs.mapM fun f => (f.1 ++ ": " ++ ·) <$> f.2.render constant := by
  induction fs with
  | nil => rfl
  | cons f fs ih => simp only [renderFields, List.mapM_cons, ih, bind_map_left]

end Value

/-- Between parentheses; no arguments, no parentheses. -/
def renderArguments (constant : Bool) (args : Arguments) : Rendered String :=
  if args.isEmpty then .ok ""
  else do
    let texts ← Value.renderFields constant args
    pure ("(" ++ ", ".intercalate texts ++ ")")

/-- The at sign is written unless the name brings it along. -/
def Directive.render (constant : Bool) (d : Directive) : Rendered String := do
  let args ← renderArguments constant d.arguments
  pure ((if d.name.toList.head? = some '@' then "" else "@") ++ d.name ++ args)

/-- `none` if there are no directives. -/
def renderDirectives (constant : Bool) (ds : List Directive) : Rendered (Option String) :=
  if ds.isEmpty then .ok none
  else do
    let texts ← ds.mapM (Directive.render constant)
    pure (some (" ".intercalate texts))

def renderDefault : Option Value → Rendered (List String)
  | none => .ok []
  | some v => do
    let text ← v.render true
    pure ["= " ++ text]

def VariableDefinition.render (name : String) (d : VariableDefinition) : Rendered String := do
  let default ← renderDefault d.default
  let directives ← renderDirectives true d.directives
  pure (" ".intercalate (["$" ++ name ++ ":", d.type] ++ default ++ directives.toList))

/-- Between parentheses; `none` if there are no variables. -/
def renderVariables (ds : Keyed VariableDefinition) : Rendered (Option String) :=
  if ds.isEmpty then .ok none
  else do
    let texts ← ds.mapM fun d => d.2.render d.1
    pure (some ("(" ++ ", ".intercalate texts ++ ")"))

end QueryDocument
