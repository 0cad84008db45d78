import QueryDocument.Document.Basic

/-!
Equality of trees: names, directives, selections and definitions in order, arguments and variables
as maps.
-/
namespace QueryDocument

def FragmentSpread.eq (a b : FragmentSpread) : Bool :=
  a.name == b.name && a.directives == b.directives

mutual
def Field.eq : Field → Field → Bool
  | ⟨name, label, args, ds, ss⟩, b =>
    name == b.name && label == b.label && Value.eqArguments args b.arguments &&
      ds == b.directives && Selection.eqAll ss b.selections

def InlineFragment.eq : InlineFragment → InlineFragment → Bool
  | ⟨type, ds, ss⟩, b =>
    type == b.typeCondition && ds == b.directives && Selection.eqAll ss b.selections

def Selection.eq : Selection → Selection → Bool
  | .field a, .field b => a.eq b
  | .spread a, .spread b => a.eq b
  | .inlineFragment a, .inlineFragment b => a.eq b
  | .unknown, .unknown => true
  | _, _ => false

def Selection.eqAll : List Selection → List Selection → Bool
  | [], [] => true
  | a :: as, b :: bs => a.eq b && Selection.eqAll as bs
  | _, _ => false
end

instance : BEq FragmentSpread := ⟨FragmentSpread.eq⟩
instance : BEq Field := ⟨Field.eq⟩
instance : BEq InlineFragment := ⟨InlineFragment.eq⟩
instance : BEq Selection := ⟨Selection.eq⟩

def FragmentDefinition.eq (a b : FragmentDefinition) : Bool :=
  a.name == b.name && a.typeCondition == b.typeCondition && a.directives == b.directives &&
    Selection.eqAll a.selections b.selections

def Operation.eq (a b : Operation) : Bool :=
  a.kind == b.kind && a.name == b.name &&
    Keyed.agree VariableDefinition.eq a.declared b.declared && a.directives == b.directives &&
    Selection.eqAll a.selections b.selections

instance : BEq FragmentDefinition := ⟨FragmentDefinition.eq⟩
instance : BEq Operation := ⟨Operation.eq⟩

def Definition.eq : Definition → Definition → Bool
  | .fragment a, .fragment b => a.eq b
  | .operation a, .operation b => a.eq b
  | .unknown, .unknown => true
  | _, _ => false

instance : BEq Definition := ⟨Definition.eq⟩

def Document.eq (a b : Document) : Bool := a.definitions == b.definitions

instance : BEq Document := ⟨Document.eq⟩

/-- Nodes of two kinds are never equal. -/
def Node.eq : Node → Node → Bool
  | .document a, .document b => a.eq b
  | .field a, .field b => a.eq b
  | .fragmentDefinition a, .fragmentDefinition b => a.eq b
  | .fragmentSpread a, .fragmentSpread b => a.eq b
  | .inlineFragment a, .inlineFragment b => a.eq b
  | .operation a, .operation b => a.eq b
  | _, _ => false

instance : BEq Node := ⟨Node.eq⟩

end QueryDocument
