import QueryDocument.Proofs.Construction.Change
import QueryDocument.Proofs.Construction.WellFormed

/-!
Trees as they are given to the functions that check them. `Lawful` says that the rules of building
hold wherever something is written, and `normalized` is what the functions make of such a tree: an
empty type condition of an inline fragment is none, and the variables of an operation are declared
one by one, under their names without one dollar sign.
-/
namespace QueryDocument

structure Directive.Lawful (d : Directive) : Prop where
  named : d.name.toList.dropWhile (· == '@') ≠ []
  argumentsNamed : ∀ k ∈ Keyed.keys d.arguments, k ≠ ""

structure VariableDefinition.Lawful (d : VariableDefinition) : Prop where
  typed : d.type ≠ ""
  directives : ∀ x ∈ d.directives, x.Lawful

structure FragmentSpread.Lawful (s : FragmentSpread) : Prop where
  named : s.name ≠ ""
  directives : ∀ d ∈ s.directives, d.Lawful

mutual
def Field.Lawful : Field → Prop
  | ⟨name, label, args, ds, ss⟩ =>
    name ≠ "" ∧ label ≠ some "" ∧ (∀ k ∈ Keyed.keys args, k ≠ "") ∧ (∀ d ∈ ds, d.Lawful) ∧
      Selection.LawfulAll ss

/-- There is no rule for the type condition. -/
def InlineFragment.Lawful : InlineFragment → Prop
  | ⟨_, ds, ss⟩ => (∀ d ∈ ds, d.Lawful) ∧ ss ≠ [] ∧ Selection.LawfulAll ss

def Selection.Lawful : Selection → Prop
  | .field f => f.Lawful
  | .spread s => s.Lawful
  | .inlineFragment f => f.Lawful
  | .unknown => True

def Selection.LawfulAll : List Selection → Prop
  | [] => True
  | s :: ss => s.Lawful ∧ Selection.LawfulAll ss
end

theorem Selection.lawfulAll_iff (ss : List Selection) :
    LawfulAll ss ↔ ∀ s ∈ ss, s.Lawful := by
  induction ss with
  | nil => simp [LawfulAll]
  | cons s ss ih => simp [LawfulAll, ih]

structure FragmentDefinition.Lawful (f : FragmentDefinition) : Prop where
  named : f.name ≠ ""
  typed : f.typeCondition ≠ ""
  directives : ∀ d ∈ f.directives, d.Lawful
  selections : ∀ s ∈ f.selections, s.Lawful

structure Operation.Lawful (o : Operation) : Prop where
  named : o.name ≠ some ""
  variablesNamed : ∀ d ∈ o.declared, bareName d.1 ≠ ""
  declarations : ∀ d ∈ o.declared, d.2.Lawful
  directives : ∀ d ∈ o.directives, d.Lawful
  selections : ∀ s ∈ o.selections, s.Lawful

def Definition.Lawful : Definition → Prop
  | .fragment f => f.Lawful
  | .operation o => o.Lawful
  | .unknown => True

def Document.Lawful (d : Document) : Prop := ∀ x ∈ d.definitions, x.Lawful

mutual
def Field.normalized : Field → Field
  | ⟨name, label, args, ds, ss⟩ => ⟨name, label, args, ds, Selection.normalizedAll ss⟩

def InlineFragment.normalized : InlineFragment → InlineFragment
  | ⟨type, ds, ss⟩ => ⟨type.filter fun t => !t.isEmpty, ds, Selection.normalizedAll ss⟩

def Selection.normalized : Selection → Selection
  | .field f => .field f.normalized
  | .spread s => .spread s
  | .inlineFragment f => .inlineFragment f.normalized
  | .unknown => .unknown

def Selection.normalizedAll : List Selection → List Selection
  | [] => []
  | s :: ss => s.normalized :: Selection.normalizedAll ss
end

theorem Selection.normalizedAll_eq_map (ss : List Selection) :
    normalizedAll ss = ss.map normalized := by
  induction ss with
  | nil => rfl
  | cons s ss ih => rw [normalizedAll, ih, List.map_cons]

def FragmentDefinition.normalized (f : FragmentDefinition) : FragmentDefinition :=
  { f with selections := f.selections.map Selection.normalized }

/-- Of two variables that come to one name the later definition stays, in the earlier place. -/
def Operation.normalized (o : Operation) : Operation :=
  { o with
    declared := Keyed.ofPairs (o.declared.map fun d => (bareName d.1, d.2))
    selections := o.selections.map Selection.normalized }

def Definition.normalized : Definition → Definition
  | .fragment f => .fragment f.normalized
  | .operation o => .operation o.normalized
  | .unknown => .unknown

def Document.normalized (d : Document) : Document :=
  ⟨d.definitions.map Definition.normalized⟩

/-- What is built is `a` if `p` holds; otherwise there is some error. -/
abbrev Checks {α : Type} (b : Built α) (p : Prop) (a : α) : Prop :=
  Outcome.Settles (fun _ => True) b p a

namespace Checks

variable {α β : Type} {a : α} {e : BuildError} {p : Prop}

theorem ofIte [Decidable p] (e : BuildError) (a : α) :
    Checks (if p then .error e else .ok a) (¬ p) a :=
  ⟨fun h => if_neg h, fun h => ⟨e, if_pos (Decidable.not_not.1 h), trivial⟩⟩

theorem pure {b : Built α} (h : Checks b p a) (f : α → β) :
    Checks (b >>= fun a => Pure.pure (f a)) p (f a) :=
  (Outcome.Settles.bind h (.ok (f a))).congr (and_iff_left trivial)

end Checks

theorem checkArguments_checks (args : Arguments) :
    Checks (checkArguments args) (∀ k ∈ Keyed.keys args, k ≠ "") () :=
  (Checks.ofIte _ ()).congr (by simp [List.forall_mem_ne'])

/-- The name is checked before those of the arguments, but both are checked. -/
theorem Directive.withArguments_checks (name : String) (args : Arguments) :
    Checks (withArguments name args) (Directive.Lawful ⟨name, args⟩) ⟨name, args⟩ := by
  unfold withArguments
  have hargs := (checkArguments_checks args).pure fun _ => (⟨name, args⟩ : Directive)
  by_cases hn : isNamed name = true
  · rw [if_pos hn]
    exact hargs.congr ⟨fun h => ⟨(isNamed_iff name).1 hn, h⟩, Lawful.argumentsNamed⟩
  · rw [if_neg hn]
    exact ⟨fun h => absurd ((isNamed_iff name).2 h.named) hn, fun _ => ⟨_, rfl, trivial⟩⟩

theorem VariableDefinition.new_checks (type : String) :
    Checks (VariableDefinition.new type) (type ≠ "") { type } :=
  (Checks.ofIte _ _).congr (by simp)

theorem FragmentSpread.new_checks (name : String) :
    Checks (FragmentSpread.new name) (name ≠ "") { name } :=
  (Checks.ofIte _ _).congr (by simp)

theorem Field.new_checks (name : String) : Checks (Field.new name) (name ≠ "") { name } :=
  (Checks.ofIte _ _).congr (by simp)

/-- A label is checked when it is set, so a field without one has none to check. -/
theorem Field.setLabel_checks (label : String) (f : Field) :
    Checks ((setLabel label).made f) (label ≠ "") { f with label := some label } := by
  rw [(setLabel_puts label).made_eq]
  exact ((Checks.ofIte _ ()).congr (by simp)).map _

theorem Field.setArguments_checks (args : Arguments) (f : Field) :
    Checks ((setArguments args).made f) (∀ k ∈ Keyed.keys args, k ≠ "")
      { f with arguments := args } := by
  rw [(setArguments_puts args).made_eq]
  exact (checkArguments_checks args).map _

/-- The one check that looks at what a block has left. -/
theorem InlineFragment.close_checks (f : InlineFragment) :
    Checks f.close (f.selections ≠ []) f :=
  (Checks.ofIte _ _).congr (by simp)

theorem FragmentDefinition.new_checks (name type : String) :
    Checks (FragmentDefinition.new name type) (name ≠ "" ∧ type ≠ "")
      { name, typeCondition := type } := by
  unfold FragmentDefinition.new
  split
  · rename_i hn
    exact ⟨fun h => absurd (String.isEmpty_iff.1 hn) h.1, fun _ => ⟨_, rfl, trivial⟩⟩
  · rename_i hn
    have hname : name ≠ "" := fun he => hn (String.isEmpty_iff.2 he)
    exact (Checks.ofIte _ _).congr (by simp [hname])

/-- Only a name that is there can be refused. -/
theorem Operation.new_checks (kind : OperationKind) (name : Option String) :
    Checks (Operation.new kind name) (name ≠ some "") { kind, name } := by
  unfold Operation.new
  split
  · exact ⟨fun h => absurd rfl h, fun _ => ⟨_, rfl, trivial⟩⟩
  · rename_i hn
    exact (Outcome.Settles.ok _).congr ⟨fun _ => hn, fun _ => trivial⟩

theorem Operation.made_declare (name : String) (d : VariableDefinition) (o : Operation) :
    (declare name d).made o =
      if (bareName name).isEmpty then .error (.missingName .variableName)
      else .ok (o.insertVariable name d) := by
  rw [(declare_puts name d).made_eq]
  by_cases h : bareName name = "" <;> simp [h]

/-- The first name that is nothing but a dollar sign, or not even this, stops the
declarations. -/
theorem Operation.made_declareAll (ds : Keyed VariableDefinition) (o : Operation) :
    (declareAll ds).made o =
      if ds.any fun d => (bareName d.1).isEmpty then .error (.missingName .variableName)
      else .ok { o with
        declared := (ds.map fun d => (bareName d.1, d.2)).foldl
          (fun es d => Keyed.insert d.1 d.2 es) o.declared } := by
  rw [declareAll, Change.made_forM]
  induction ds generalizing o with
  | nil => rfl
  | cons d ds ih =>
    rw [List.foldlM_cons, made_declare, List.any_cons]
    cases (bareName d.1).isEmpty with
    | true => rfl
    | false => exact ih (o.insertVariable d.1 d.2)

/-- Definitions that were checked before need their names checked only. -/
theorem Operation.declareAll_checks (ds : Keyed VariableDefinition) (o : Operation) :
    Checks ((declareAll ds).made o) (∀ d ∈ ds, bareName d.1 ≠ "")
      { o with
        declared := (ds.map fun d => (bareName d.1, d.2)).foldl
          (fun es d => Keyed.insert d.1 d.2 es) o.declared } := by
  rw [made_declareAll]
  exact (Checks.ofIte _ _).congr (by simp)

end QueryDocument
