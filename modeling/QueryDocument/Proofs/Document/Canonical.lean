import QueryDocument.Proofs.Document.Agreement
import QueryDocument.Proofs.Document.Finite

/-!
What counts in a tree when it is compared. Its canonical form has the entries of every map in the
order of their keys and one zero in the place of both; lists, directives, selections and definitions
stand in it as they stood. A tree is distinct if each of its maps holds each key once.
-/
namespace QueryDocument

def Binary64.canonical (x : Binary64) : Binary64 := if x.magnitude = 0 then ⟨0⟩ else x

namespace Value

mutual
/-- All floats in the value. -/
def floats : Value → List Binary64
  | .float x => [x]
  | .list items => floatsOfItems items
  | .object fields => floatsOfFields fields
  | .bool _ | .enum _ | .int _ | .null | .string _ | .var _ => []

def floatsOfItems : List Value → List Binary64
  | [] => []
  | v :: vs => v.floats ++ floatsOfItems vs

def floatsOfFields : List (String × Value) → List Binary64
  | [] => []
  | (_, v) :: fs => v.floats ++ floatsOfFields fs
end

mutual
def canonical : Value → Value
  | .float x => .float x.canonical
  | .list items => .list (canonicalItems items)
  | .object fields => .object (Keyed.sorted (canonicalFields fields))
  | .bool b => .bool b
  | .enum name => .enum name
  | .int n => .int n
  | .null => .null
  | .string text => .string text
  | .var name => .var name

def canonicalItems : List Value → List Value
  | [] => []
  | v :: vs => v.canonical :: canonicalItems vs

def canonicalFields : List (String × Value) → List (String × Value)
  | [] => []
  | (k, v) :: fs => (k, v.canonical) :: canonicalFields fs
end

theorem floatsOfItems_eq_flatMap (vs : List Value) : floatsOfItems vs = vs.flatMap floats := by
  induction vs with
  | nil => rfl
  | cons v vs ih => rw [floatsOfItems, ih, List.flatMap_cons]

/-- The floats of an object are those of its fields, in the order of the map. -/
theorem floatsOfFields_eq_flatMap (fs : List (String × Value)) :
    floatsOfFields fs = fs.flatMap fun f => f.2.floats := by
  induction fs with
  | nil => rfl
  | cons f fs ih => rw [floatsOfFields, ih, List.flatMap_cons]

theorem canonicalItems_eq_map (vs : List Value) : canonicalItems vs = vs.map canonical := by
  induction vs with
  | nil => rfl
  | cons v vs ih => rw [canonicalItems, ih, List.map_cons]

/-- Within an object the values are made canonical before it is sorted. -/
theorem canonicalFields_eq_mapValues (fs : List (String × Value)) :
    canonicalFields fs = Keyed.mapValues canonical fs := by
  induction fs with
  | nil => rfl
  | cons f fs ih => exact congrArg ((f.1, f.2.canonical) :: ·) ih

end Value

def Arguments.canonical (args : Arguments) : Arguments := Keyed.sorted (Value.canonicalFields args)

def Directive.floats (d : Directive) : List Binary64 := Value.floatsOfFields d.arguments

def Directive.canonical (d : Directive) : Directive := ⟨d.name, Arguments.canonical d.arguments⟩

def Directive.Distinct (d : Directive) : Prop := Arguments.Distinct d.arguments

namespace VariableDefinition

def floats (d : VariableDefinition) : List Binary64 :=
  d.default.toList.flatMap Value.floats ++ d.directives.flatMap Directive.floats

def canonical (d : VariableDefinition) : VariableDefinition :=
  { type := d.type
    default := d.default.map Value.canonical
    directives := d.directives.map Directive.canonical }

structure Distinct (d : VariableDefinition) : Prop where
  default : ∀ v ∈ d.default, v.Distinct
  directives : ∀ x ∈ d.directives, x.Distinct

end VariableDefinition

namespace FragmentSpread

def floats (s : FragmentSpread) : List Binary64 := s.directives.flatMap Directive.floats

def canonical (s : FragmentSpread) : FragmentSpread :=
  ⟨s.name, s.directives.map Directive.canonical⟩

def Distinct (s : FragmentSpread) : Prop := ∀ d ∈ s.directives, d.Distinct

end FragmentSpread

mutual
def Field.floats : Field → List Binary64
  | ⟨_, _, args, ds, ss⟩ =>
    Value.floatsOfFields args ++ ds.flatMap Directive.floats ++ Selection.floatsOfAll ss

def InlineFragment.floats : InlineFragment → List Binary64
  | ⟨_, ds, ss⟩ => ds.flatMap Directive.floats ++ Selection.floatsOfAll ss

def Selection.floats : Selection → List Binary64
  | .field f => f.floats
  | .spread s => s.floats
  | .inlineFragment f => f.floats
  | .unknown => []

def Selection.floatsOfAll : List Selection → List Binary64
  | [] => []
  | s :: ss => s.floats ++ Selection.floatsOfAll ss
end

mutual
def Field.canonical : Field → Field
  | ⟨name, label, args, ds, ss⟩ =>
    ⟨name, label, Arguments.canonical args, ds.map Directive.canonical, Selection.canonicalAll ss⟩

def InlineFragment.canonical : InlineFragment → InlineFragment
  | ⟨type, ds, ss⟩ => ⟨type, ds.map Directive.canonical, Selection.canonicalAll ss⟩

def Selection.canonical : Selection → Selection
  | .field f => .field f.canonical
  | .spread s => .spread s.canonical
  | .inlineFragment f => .inlineFragment f.canonical
  | .unknown => .unknown

def Selection.canonicalAll : List Selection → List Selection
  | [] => []
  | s :: ss => s.canonical :: Selection.canonicalAll ss
end

mutual
def Field.Distinct : Field → Prop
  | ⟨_, _, args, ds, ss⟩ =>
    Arguments.Distinct args ∧ (∀ d ∈ ds, d.Distinct) ∧ Selection.DistinctAll ss

def InlineFragment.Distinct : InlineFragment → Prop
  | ⟨_, ds, ss⟩ => (∀ d ∈ ds, d.Distinct) ∧ Selection.DistinctAll ss

def Selection.Distinct : Selection → Prop
  | .field f => f.Distinct
  | .spread s => s.Distinct
  | .inlineFragment f => f.Distinct
  | .unknown => True

def Selection.DistinctAll : List Selection → Prop
  | [] => True
  | s :: ss => s.Distinct ∧ Selection.DistinctAll ss
end

namespace Selection

theorem floatsOfAll_eq_flatMap (ss : List Selection) : floatsOfAll ss = ss.flatMap floats := by
  induction ss with
  | nil => rfl
  | cons s ss ih => rw [floatsOfAll, ih, List.flatMap_cons]

theorem canonicalAll_eq_map (ss : List Selection) : canonicalAll ss = ss.map canonical := by
  induction ss with
  | nil => rfl
  | cons s ss ih => rw [canonicalAll, ih, List.map_cons]

theorem distinctAll_iff (ss : List Selection) : DistinctAll ss ↔ ∀ s ∈ ss, s.Distinct := by
  induction ss with
  | nil => simp [DistinctAll]
  | cons s ss ih => simp only [DistinctAll, ih, List.forall_mem_cons]

end Selection

namespace FragmentDefinition

def floats (f : FragmentDefinition) : List Binary64 :=
  f.directives.flatMap Directive.floats ++ f.selections.flatMap Selection.floats

def canonical (f : FragmentDefinition) : FragmentDefinition :=
  { f with
    directives := f.directives.map Directive.canonical
    selections := f.selections.map Selection.canonical }

structure Distinct (f : FragmentDefinition) : Prop where
  directives : ∀ d ∈ f.directives, d.Distinct
  selections : ∀ s ∈ f.selections, s.Distinct

end FragmentDefinition

namespace Operation

def floats (o : Operation) : List Binary64 :=
  (o.declared.flatMap fun d => d.2.floats) ++ o.directives.flatMap Directive.floats ++
    o.selections.flatMap Selection.floats

def canonical (o : Operation) : Operation :=
  { o with
    declared := Keyed.sorted (Keyed.mapValues VariableDefinition.canonical o.declared)
    directives := o.directives.map Directive.canonical
    selections := o.selections.map Selection.canonical }

structure Distinct (o : Operation) : Prop where
  declared : Keyed.Distinct o.declared
  declarations : ∀ d ∈ o.declared, d.2.Distinct
  directives : ∀ d ∈ o.directives, d.Distinct
  selections : ∀ s ∈ o.selections, s.Distinct

end Operation

namespace Definition

def floats : Definition → List Binary64
  | .fragment f => f.floats
  | .operation o => o.floats
  | .unknown => []

def canonical : Definition → Definition
  | .fragment f => .fragment f.canonical
  | .operation o => .operation o.canonical
  | .unknown => .unknown

def Distinct : Definition → Prop
  | .fragment f => f.Distinct
  | .operation o => o.Distinct
  | .unknown => True

end Definition

namespace Node

def floats : Node → List Binary64
  | .document d => d.definitions.flatMap Definition.floats
  | .field f => f.floats
  | .fragmentDefinition f => f.floats
  | .fragmentSpread s => s.floats
  | .inlineFragment f => f.floats
  | .operation o => o.floats

def canonical : Node → Node
  | .document d => .document ⟨d.definitions.map Definition.canonical⟩
  | .field f => .field f.canonical
  | .fragmentDefinition f => .fragmentDefinition f.canonical
  | .fragmentSpread s => .fragmentSpread s.canonical
  | .inlineFragment f => .inlineFragment f.canonical
  | .operation o => .operation o.canonical

def Distinct : Node → Prop
  | .document d => ∀ x ∈ d.definitions, x.Distinct
  | .field f => f.Distinct
  | .fragmentDefinition f => f.Distinct
  | .fragmentSpread s => s.Distinct
  | .inlineFragment f => f.Distinct
  | .operation o => o.Distinct

end Node
end QueryDocument
