import QueryDocument.Document.Basic
import QueryDocument.Proofs.Text.Mask

/-!
What a tree is apart from the contents of its string values. `blanked` empties every string, so that
two trees are blanked alike if they differ in such contents only; `strings` lists these contents in
the order in which a tree is rendered, and `Quoteless` says that no quote stands anywhere else.
-/
namespace QueryDocument

open Text (Quoteless)

namespace Value

mutual
def blanked : Value → Value
  | .list items => .list (blankedItems items)
  | .object fields => .object (blankedFields fields)
  | .string _ => .string ""
  | .bool b => .bool b
  | .enum name => .enum name
  | .float x => .float x
  | .int n => .int n
  | .null => .null
  | .var name => .var name

def blankedItems : List Value → List Value
  | [] => []
  | v :: vs => v.blanked :: blankedItems vs

def blankedFields : List (String × Value) → List (String × Value)
  | [] => []
  | (k, v) :: fs => (k, v.blanked) :: blankedFields fs
end

mutual
def strings : Value → List String
  | .list items => stringsOfItems items
  | .object fields => stringsOfFields fields
  | .string text => [text]
  | .bool _ | .enum _ | .float _ | .int _ | .null | .var _ => []

def stringsOfItems : List Value → List String
  | [] => []
  | v :: vs => v.strings ++ stringsOfItems vs

def stringsOfFields : List (String × Value) → List String
  | [] => []
  | (_, v) :: fs => v.strings ++ stringsOfFields fs
end

mutual
protected def Quoteless : Value → Prop
  | .list items => QuotelessItems items
  | .object fields => QuotelessFields fields
  | .enum name | .var name => Text.Quoteless name
  | .string _ | .bool _ | .float _ | .int _ | .null => True

def QuotelessItems : List Value → Prop
  | [] => True
  | v :: vs => v.Quoteless ∧ QuotelessItems vs

def QuotelessFields : List (String × Value) → Prop
  | [] => True
  | (k, v) :: fs => Text.Quoteless k ∧ v.Quoteless ∧ QuotelessFields fs
end

end Value

namespace Directive

def blanked (d : Directive) : Directive :=
  { d with arguments := Value.blankedFields d.arguments }

def strings (d : Directive) : List String := Value.stringsOfFields d.arguments

def stringsOfAll (ds : List Directive) : List String := ds.flatMap strings

protected structure Quoteless (d : Directive) : Prop where
  name : Text.Quoteless d.name
  arguments : Value.QuotelessFields d.arguments

end Directive

namespace VariableDefinition

def blanked (d : VariableDefinition) : VariableDefinition :=
  { d with
    default := d.default.map Value.blanked
    directives := d.directives.map Directive.blanked }

def stringsOfDefault : Option Value → List String
  | none => []
  | some v => v.strings

def strings (d : VariableDefinition) : List String :=
  stringsOfDefault d.default ++ Directive.stringsOfAll d.directives

protected structure Quoteless (d : VariableDefinition) : Prop where
  type : Text.Quoteless d.type
  default : ∀ v ∈ d.default, v.Quoteless
  directives : ∀ x ∈ d.directives, x.Quoteless

end VariableDefinition

def FragmentSpread.blanked (s : FragmentSpread) : FragmentSpread :=
  { s with directives := s.directives.map Directive.blanked }

protected structure FragmentSpread.Quoteless (s : FragmentSpread) : Prop where
  name : Text.Quoteless s.name
  directives : ∀ d ∈ s.directives, d.Quoteless

mutual
def Field.blanked : Field → Field
  | ⟨name, label, args, ds, ss⟩ =>
    ⟨name, label, Value.blankedFields args, ds.map Directive.blanked, Selection.blankedAll ss⟩

def InlineFragment.blanked : InlineFragment → InlineFragment
  | ⟨type, ds, ss⟩ => ⟨type, ds.map Directive.blanked, Selection.blankedAll ss⟩

def Selection.blanked : Selection → Selection
  | .field f => .field f.blanked
  | .spread s => .spread s.blanked
  | .inlineFragment f => .inlineFragment f.blanked
  | .unknown => .unknown

def Selection.blankedAll : List Selection → List Selection
  | [] => []
  | s :: ss => s.blanked :: Selection.blankedAll ss
end

mutual
def Field.strings : Field → List String
  | ⟨_, _, args, ds, ss⟩ =>
    Value.stringsOfFields args ++ Directive.stringsOfAll ds ++ Selection.stringsOfAll ss

def InlineFragment.strings : InlineFragment → List String
  | ⟨_, ds, ss⟩ => Directive.stringsOfAll ds ++ Selection.stringsOfAll ss

def Selection.strings : Selection → List String
  | .field f => f.strings
  | .spread s => Directive.stringsOfAll s.directives
  | .inlineFragment f => f.strings
  | .unknown => []

def Selection.stringsOfAll : List Selection → List String
  | [] => []
  | s :: ss => s.strings ++ Selection.stringsOfAll ss
end

mutual
protected def Field.Quoteless : Field → Prop
  | ⟨name, label, args, ds, ss⟩ =>
    Text.Quoteless name ∧ (∀ l ∈ label, Text.Quoteless l) ∧ Value.QuotelessFields args ∧
      (∀ d ∈ ds, d.Quoteless) ∧ Selection.QuotelessAll ss

protected def InlineFragment.Quoteless : InlineFragment → Prop
  | ⟨type, ds, ss⟩ =>
    (∀ t ∈ type, Text.Quoteless t) ∧ (∀ d ∈ ds, d.Quoteless) ∧ Selection.QuotelessAll ss

protected def Selection.Quoteless : Selection → Prop
  | .field f => f.Quoteless
  | .spread s => s.Quoteless
  | .inlineFragment f => f.Quoteless
  | .unknown => True

def Selection.QuotelessAll : List Selection → Prop
  | [] => True
  | s :: ss => s.Quoteless ∧ Selection.QuotelessAll ss
end

namespace FragmentDefinition

def blanked (f : FragmentDefinition) : FragmentDefinition :=
  { f with
    directives := f.directives.map Directive.blanked
    selections := Selection.blankedAll f.selections }

def strings (f : FragmentDefinition) : List String :=
  Directive.stringsOfAll f.directives ++ Selection.stringsOfAll f.selections

protected structure Quoteless (f : FragmentDefinition) : Prop where
  name : Text.Quoteless f.name
  typeCondition : Text.Quoteless f.typeCondition
  directives : ∀ d ∈ f.directives, d.Quoteless
  selections : Selection.QuotelessAll f.selections

end FragmentDefinition

namespace Operation

def blanked (o : Operation) : Operation :=
  { o with
    declared := o.declared.map fun d => (d.1, d.2.blanked)
    directives := o.directives.map Directive.blanked
    selections := Selection.blankedAll o.selections }

def strings (o : Operation) : List String :=
  (o.declared.flatMap fun d => d.2.strings) ++ Directive.stringsOfAll o.directives ++
    Selection.stringsOfAll o.selections

protected structure Quoteless (o : Operation) : Prop where
  name : ∀ n ∈ o.name, Text.Quoteless n
  declared : ∀ d ∈ o.declared, Text.Quoteless d.1 ∧ d.2.Quoteless
  directives : ∀ d ∈ o.directives, d.Quoteless
  selections : Selection.QuotelessAll o.selections

end Operation

namespace Definition

def blanked : Definition → Definition
  | .fragment f => .fragment f.blanked
  | .operation o => .operation o.blanked
  | .unknown => .unknown

def strings : Definition → List String
  | .fragment f => f.strings
  | .operation o => o.strings
  | .unknown => []

protected def Quoteless : Definition → Prop
  | .fragment f => f.Quoteless
  | .operation o => o.Quoteless
  | .unknown => True

end Definition

namespace Node

def blanked : Node → Node
  | .document d => .document ⟨d.definitions.map Definition.blanked⟩
  | .field f => .field f.blanked
  | .fragmentDefinition f => .fragmentDefinition f.blanked
  | .fragmentSpread s => .fragmentSpread s.blanked
  | .inlineFragment f => .inlineFragment f.blanked
  | .operation o => .operation o.blanked

def strings : Node → List String
  | .document d => d.definitions.flatMap Definition.strings
  | .field f => f.strings
  | .fragmentDefinition f => f.strings
  | .fragmentSpread s => Directive.stringsOfAll s.directives
  | .inlineFragment f => f.strings
  | .operation o => o.strings

protected def Quoteless : Node → Prop
  | .document d => ∀ x ∈ d.definitions, x.Quoteless
  | .field f => f.Quoteless
  | .fragmentDefinition f => f.Quoteless
  | .fragmentSpread s => s.Quoteless
  | .inlineFragment f => f.Quoteless
  | .operation o => o.Quoteless

end Node
end QueryDocument
