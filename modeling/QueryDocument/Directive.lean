import QueryDocument.BuildError

/-!
Directives and the shapes a caller may give one in: a bare name, a name with arguments, a value that
spells one of these, or a directive that is built already.
-/
namespace QueryDocument

/-- The name may begin with an at sign. -/
structure Directive where
  name : String
  arguments : List (String × Value) := []

inductive DirectiveShape where
  | name (text : String)
  | call (name : String) (arguments : List (String × Value))
  | value (v : Value)
  | built (shape : DirectiveShape)

/-- No argument may have an empty name. -/
def checkArguments (args : Arguments) : Except BuildError Unit :=
  if args.keys.any String.isEmpty then .error (.missingName .argument) else .ok ()

namespace Directive

def eq (a b : Directive) : Bool := a.name == b.name && Value.eqArguments a.arguments b.arguments

instance : BEq Directive := ⟨eq⟩

/-- Whether anything is left of a name without the at signs at its head. -/
def isNamed (name : String) : Bool := name.toList.any (· != '@')

def withArguments (name : String) (args : Arguments) : Except BuildError Directive :=
  if isNamed name then do
    checkArguments args
    pure ⟨name, args⟩
  else .error (.missingName .directive)

def new (name : String) : Except BuildError Directive := withArguments name []

/-- An enum value or a string names a directive; a list holds the name and at choice an object of
arguments; an object has the keys `name` and at choice `args`. -/
def ofValue (shape : Value) : Except BuildError Directive :=
  match shape with
  | .enum name => new name
  | .string name => new name
  | .list [.null] => .error (.missingName .directive)
  | .list [.null, .object _] => .error (.missingName .directive)
  | .list [name] =>
    match name.name? with
    | some name => new name
    | none => .error (.unsupportedDirective shape)
  | .list [name, .object args] =>
    match name.name? with
    | some name => withArguments name args
    | none => .error (.unsupportedDirective shape)
  | .object fields =>
    match fields.lookup "name" with
    | none => .error (.missingName .directive)
    | some .null => .error (.missingName .directive)
    | some name =>
      match name.name?, fields.lookup "args" with
      | none, _ => .error (.unsupportedDirective shape)
      | some name, none => new name
      | some name, some (.object args) => withArguments name args
      | some _, some _ => .error (.unsupportedDirective shape)
  | _ => .error (.unsupportedDirective shape)

def ofShape : DirectiveShape → Except BuildError Directive
  | .name text => new text
  | .call name args => withArguments name args
  | .value v => ofValue v
  | .built shape => ofShape shape

/-- Stops at the first shape that is no directive. -/
def ofShapes (shapes : List DirectiveShape) : Except BuildError (List Directive) :=
  shapes.mapM ofShape

end Directive
end QueryDocument
