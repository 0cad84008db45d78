import QueryDocument.Document.Basic
import QueryDocument.Proofs.Binary64.Text
import QueryDocument.Proofs.Grammar.Reader

/-!
Trees that the grammar can express, and the tokens of such a tree in the order of the grammar. The
names in the tree must be names of the language, a type must be spelled as a type, a constant may
hold no variable, and a node that has braces something between them.
-/
namespace QueryDocument

open Grammar

/-- The name of a directive without the at sign at its head, if it has one. -/
def Directive.plainName (name : String) : String :=
  match name.toList with
  | '@' :: cs => String.ofList cs
  | _ => name

def Grammar.TypeReference.Named : TypeReference → Prop
  | .named name _ => isName name = true
  | .list item _ => item.Named

namespace Value

mutual
def Named (constant : Bool) : Value → Prop
  | .enum name => isName name = true ∧ name ≠ "true" ∧ name ≠ "false" ∧ name ≠ "null"
  | .float x => x.isFinite = true
  | .list items => NamedItems constant items
  | .object fields => NamedFields constant fields
  | .var name => constant = false ∧ isName name = true
  | _ => True

def NamedItems (constant : Bool) : List Value → Prop
  | [] => True
  | v :: vs => v.Named constant ∧ NamedItems constant vs

def NamedFields (constant : Bool) : List (String × Value) → Prop
  | [] => True
  | (k, v) :: fs => isName k = true ∧ v.Named constant ∧ NamedFields constant fs
end

mutual
def tokens : Value → List Token
  | .bool b => [.name (if b then "true" else "false")]
  | .enum name => [.name name]
  | .float x => [.number x.numeral]
  | .int n => [.number (Numeral.ofInt n.toInt)]
  | .list items => .openBracket :: tokensOfItems items ++ [.closeBracket]
  | .null => [.name "null"]
  | .object fields => .openBrace :: tokensOfFields fields ++ [.closeBrace]
  | .string text => [.string text]
  | .var name => [.dollar, .name name]

def tokensOfItems : List Value → List Token
  | [] => []
  | v :: vs => v.tokens ++ tokensOfItems vs

/-- Of the fields of an object as of arguments. -/
def tokensOfFields : List (String × Value) → List Token
  | [] => []
  | (k, v) :: fs => .name k :: .colon :: v.tokens ++ tokensOfFields fs
end

end Value

/-- No arguments, no parentheses. -/
def argumentTokens (args : Arguments) : List Token :=
  if args.isEmpty then [] else .openParen :: Value.tokensOfFields args ++ [.closeParen]

namespace Directive

structure Named (constant : Bool) (d : Directive) : Prop where
  name : isName (plainName d.name) = true
  arguments : Value.NamedFields constant d.arguments

def tokens (d : Directive) : List Token :=
  .atSign :: .name (plainName d.name) :: argumentTokens d.arguments

def withoutSigil (d : Directive) : Directive := ⟨plainName d.name, d.arguments⟩

end Directive

def directiveTokens (ds : List Directive) : List Token := ds.flatMap Directive.tokens

def bangTokens (required : Bool) : List Token := if required then [.bang] else []

def Grammar.TypeReference.tokens : TypeReference → List Token
  | .named name required => .name name :: bangTokens required
  | .list item required => .openBracket :: item.tokens ++ .closeBracket :: bangTokens required

/-- The tokens of the text of a type. -/
def typeTokens (type : String) : List Token := (scan type.toList).getD []

namespace VariableDefinition

structure Named (d : VariableDefinition) : Prop where
  type : ∃ t : TypeReference, t.Named ∧ d.type = t.text
  default : ∀ v, d.default = some v → v.Named true
  directives : ∀ x ∈ d.directives, x.Named true

def defaultTokens : Option Value → List Token
  | none => []
  | some v => .equals :: v.tokens

def tokens (name : String) (d : VariableDefinition) : List Token :=
  .dollar :: .name name :: .colon ::
    (typeTokens d.type ++ defaultTokens d.default ++ directiveTokens d.directives)

def withoutSigils (d : VariableDefinition) : VariableDefinition :=
  { d with directives := d.directives.map Directive.withoutSigil }

end VariableDefinition

namespace FragmentSpread

structure Named (s : FragmentSpread) : Prop where
  name : isName s.name = true ∧ s.name ≠ "on"
  directives : ∀ d ∈ s.directives, d.Named false

def tokens (s : FragmentSpread) : List Token :=
  .spread :: .name s.name :: directiveTokens s.directives

def withoutSigils (s : FragmentSpread) : FragmentSpread :=
  { s with directives := s.directives.map Directive.withoutSigil }

end FragmentSpread

/-- No variables, no parentheses. -/
def variableTokens (ds : Keyed VariableDefinition) : List Token :=
  if ds.isEmpty then []
  else .openParen :: (ds.flatMap fun d => d.2.tokens d.1) ++ [.closeParen]

def labelTokens : Option String → List Token
  | none => []
  | some label => [.name label, .colon]

def conditionTokens : Option String → List Token
  | none => []
  | some type => [.name "on", .name type]

mutual
/-- A field may lack selections; an inline fragment may not. -/
def Field.Named : Field → Prop
  | ⟨name, label, args, ds, ss⟩ =>
    isName name = true ∧ (∀ l, label = some l → isName l = true) ∧
      Value.NamedFields false args ∧ (∀ d ∈ ds, d.Named false) ∧ Selection.NamedAll ss

def InlineFragment.Named : InlineFragment → Prop
  | ⟨type, ds, ss⟩ =>
    (∀ t, type = some t → isName t = true) ∧ (∀ d ∈ ds, d.Named false) ∧ ss ≠ [] ∧
      Selection.NamedAll ss

def Selection.Named : Selection → Prop
  | .field f => f.Named
  | .spread s => s.Named
  | .inlineFragment f => f.Named
  | .unknown => False

def Selection.NamedAll : List Selection → Prop
  | [] => True
  | s :: ss => s.Named ∧ Selection.NamedAll ss
end

mutual
def Field.tokens : Field → List Token
  | ⟨name, label, args, ds, ss⟩ =>
    labelTokens label ++ .name name :: (argumentTokens args ++ directiveTokens ds ++
      Selection.optionalTokens ss)

def InlineFragment.tokens : InlineFragment → List Token
  | ⟨type, ds, ss⟩ =>
    .spread :: (conditionTokens type ++ directiveTokens ds ++
      .openBrace :: Selection.tokensOfAll ss ++ [.closeBrace])

def Selection.tokens : Selection → List Token
  | .field f => f.tokens
  | .spread s => s.tokens
  | .inlineFragment f => f.tokens
  | .unknown => []

def Selection.tokensOfAll : List Selection → List Token
  | [] => []
  | s :: ss => s.tokens ++ Selection.tokensOfAll ss

/-- No selections, no braces. -/
def Selection.optionalTokens : List Selection → List Token
  | [] => []
  | s :: ss => .openBrace :: (s.tokens ++ Selection.tokensOfAll ss) ++ [.closeBrace]
end

mutual
def Field.withoutSigils : Field → Field
  | ⟨name, label, args, ds, ss⟩ =>
    ⟨name, label, args, ds.map Directive.withoutSigil, Selection.allWithoutSigils ss⟩

def InlineFragment.withoutSigils : InlineFragment → InlineFragment
  | ⟨type, ds, ss⟩ => ⟨type, ds.map Directive.withoutSigil, Selection.allWithoutSigils ss⟩

def Selection.withoutSigils : Selection → Selection
  | .field f => .field f.withoutSigils
  | .spread s => .spread s.withoutSigils
  | .inlineFragment f => .inlineFragment f.withoutSigils
  | .unknown => .unknown

def Selection.allWithoutSigils : List Selection → List Selection
  | [] => []
  | s :: ss => s.withoutSigils :: Selection.allWithoutSigils ss
end

namespace FragmentDefinition

structure Named (f : FragmentDefinition) : Prop where
  name : isName f.name = true ∧ f.name ≠ "on"
  typeCondition : isName f.typeCondition = true
  directives : ∀ d ∈ f.directives, d.Named false
  selections : f.selections ≠ [] ∧ Selection.NamedAll f.selections

def tokens (f : FragmentDefinition) : List Token :=
  .name "fragment" :: .name f.name :: .name "on" :: .name f.typeCondition ::
    (directiveTokens f.directives ++
      .openBrace :: Selection.tokensOfAll f.selections ++ [.closeBrace])

def withoutSigils (f : FragmentDefinition) : FragmentDefinition :=
  { f with
    directives := f.directives.map Directive.withoutSigil
    selections := Selection.allWithoutSigils f.selections }

end FragmentDefinition

namespace Operation

structure Named (o : Operation) : Prop where
  name : ∀ n, o.name = some n → isName n = true
  declared : ∀ e ∈ o.declared, isName e.1 = true ∧ e.2.Named
  directives : ∀ d ∈ o.directives, d.Named false
  selections : o.selections ≠ [] ∧ Selection.NamedAll o.selections

def withoutSigils (o : Operation) : Operation :=
  { o with
    declared := o.declared.map fun e => (e.1, e.2.withoutSigils)
    directives := o.directives.map Directive.withoutSigil
    selections := Selection.allWithoutSigils o.selections }

/-- A query may have nothing but selections. -/
def headTokens (o : Operation) : List Token :=
  if o.kind = .query ∧ o.name = none ∧ o.declared = [] ∧ o.directives = [] then []
  else
    .name o.kind.keyword :: ((o.name.toList.map .name) ++ variableTokens o.declared ++
      directiveTokens o.directives)

def tokens (o : Operation) : List Token :=
  o.headTokens ++ .openBrace :: Selection.tokensOfAll o.selections ++ [.closeBrace]

end Operation

namespace Definition

def Named : Definition → Prop
  | .fragment f => f.Named
  | .operation o => o.Named
  | .unknown => False

def tokens : Definition → List Token
  | .fragment f => f.tokens
  | .operation o => o.tokens
  | .unknown => []

def withoutSigils : Definition → Definition
  | .fragment f => .fragment f.withoutSigils
  | .operation o => .operation o.withoutSigils
  | .unknown => .unknown

end Definition

/-- Every definition can be expressed, and there is one. -/
structure Document.Named (d : Document) : Prop where
  definitions : d.definitions ≠ [] ∧ ∀ x ∈ d.definitions, x.Named

def Document.tokens (d : Document) : List Token := d.definitions.flatMap Definition.tokens

def Document.withoutSigils (d : Document) : Document :=
  ⟨d.definitions.map Definition.withoutSigils⟩

end QueryDocument
