import QueryDocument.Document.Basic

/-!
Trees without a float that is infinite or no number.
-/
namespace QueryDocument

namespace Value

mutual
/-- All floats in the value are finite. -/
def isFinite : Value → Bool
  | .bool _ | .enum _ | .int _ | .null | .string _ | .var _ => true
  | .float x => x.isFinite
  | .list items => itemsFinite items
  | .object fields => fieldsFinite fields

def itemsFinite : List Value → Bool
  | [] => true
  | v :: vs => v.isFinite && itemsFinite vs

def fieldsFinite : List (String × Value) → Bool
  | [] => true
  | (_, v) :: fs => v.isFinite && fieldsFinite fs
end

theorem itemsFinite_eq_all (vs : List Value) : itemsFinite vs = vs.all isFinite := by
  induction vs with
  | nil => rfl
  | cons v vs ih => rw [itemsFinite, ih, List.all_cons]

theorem fieldsFinite_eq_all (fs : List (String × Value)) :
    fieldsFinite fs = fs.all fun f => f.2.isFinite := by
  induction fs with
  | nil => rfl
  | cons f fs ih => rw [fieldsFinite, ih, List.all_cons]

end Value

def Directive.isFinite (d : Directive) : Bool := Value.fieldsFinite d.arguments

def VariableDefinition.isFinite (d : VariableDefinition) : Bool :=
  d.default.all Value.isFinite && d.directives.all Directive.isFinite

def FragmentSpread.isFinite (s : FragmentSpread) : Bool := s.directives.all Directive.isFinite

mutual
def Field.isFinite : Field → Bool
  | ⟨_, _, args, ds, ss⟩ =>
    Value.fieldsFinite args && ds.all Directive.isFinite && Selection.allFinite ss

def InlineFragment.isFinite : InlineFragment → Bool
  | ⟨_, ds, ss⟩ => ds.all Directive.isFinite && Selection.allFinite ss

def Selection.isFinite : Selection → Bool
  | .field f => f.isFinite
  | .spread s => s.isFinite
  | .inlineFragment f => f.isFinite
  | .unknown => true

def Selection.allFinite : List Selection → Bool
  | [] => true
  | s :: ss => s.isFinite && Selection.allFinite ss
end

/-- No selection has a float that is infinite or no number. -/
theorem Selection.allFinite_eq_all (ss : List Selection) : allFinite ss = ss.all isFinite := by
  induction ss with
  | nil => rfl
  | cons s ss ih => rw [allFinite, ih, List.all_cons]

def FragmentDefinition.isFinite (f : FragmentDefinition) : Bool :=
  f.directives.all Directive.isFinite && f.selections.all Selection.isFinite

def Operation.isFinite (o : Operation) : Bool :=
  o.directives.all Directive.isFinite && o.selections.all Selection.isFinite &&
    o.declared.all fun d => d.2.isFinite

def Definition.isFinite : Definition → Bool
  | .fragment f => f.isFinite
  | .operation o => o.isFinite
  | .unknown => true

def Document.isFinite (d : Document) : Bool := d.definitions.all Definition.isFinite

def Node.isFinite : Node → Bool
  | .document d => d.isFinite
  | .field f => f.isFinite
  | .fragmentDefinition f => f.isFinite
  | .fragmentSpread s => s.isFinite
  | .inlineFragment f => f.isFinite
  | .operation o => o.isFinite

end QueryDocument
