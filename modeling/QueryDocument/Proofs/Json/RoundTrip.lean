import QueryDocument.Proofs.Json.Accepted
import QueryDocument.Proofs.Json.Exact

/-!
Writing as JSON and reading back. `Subject.roundTrip_eq_iff_stable` says for everything that is
built or read which of it comes back, and what the rest comes to.
-/
namespace QueryDocument

open Build Json

/-- What has a JSON form of its own. -/
inductive Subject where
  | node (n : Node)
  | variableDefinition (d : VariableDefinition)
  | directive (d : Directive)

namespace Subject

/-- The types of subjects, each with its own reader. -/
inductive Kind where
  | document
  | field
  | fragmentDefinition
  | fragmentSpread
  | inlineFragment
  | operation
  | variableDefinition
  | directive
  deriving DecidableEq

@[reducible] def Kind.slot : Kind → Slot
  | .document => .document
  | .field => .field
  | .fragmentDefinition => .fragmentDefinition
  | .fragmentSpread => .fragmentSpread
  | .inlineFragment => .inlineFragment
  | .operation => .operation
  | .variableDefinition => .variableDefinition
  | .directive => .directive

def Kind.subject : (k : Kind) → k.slot.Content → Subject
  | .document, d => .node (.document d)
  | .field, f => .node (.field f)
  | .fragmentDefinition, f => .node (.fragmentDefinition f)
  | .fragmentSpread, s => .node (.fragmentSpread s)
  | .inlineFragment, f => .node (.inlineFragment f)
  | .operation, o => .node (.operation o)
  | .variableDefinition, d => .variableDefinition d
  | .directive, d => .directive d

def Kind.decode (k : Kind) (text : String) : Reads Subject :=
  k.subject <$> Json.decode k.slot text

def kind : Subject → Kind
  | .node (.document _) => .document
  | .node (.field _) => .field
  | .node (.fragmentDefinition _) => .fragmentDefinition
  | .node (.fragmentSpread _) => .fragmentSpread
  | .node (.inlineFragment _) => .inlineFragment
  | .node (.operation _) => .operation
  | .variableDefinition _ => .variableDefinition
  | .directive _ => .directive

def toJson : Subject → Json
  | .node n => n.toJson
  | .variableDefinition d => d.toJson
  | .directive d => d.toJson

/-- What is read of the text that is written, by the reader of the same kind. -/
def roundTrip (x : Subject) : Reads Subject := x.kind.decode x.toJson.write

def eq : Subject → Subject → Bool
  | .node a, .node b => a == b
  | .variableDefinition a, .variableDefinition b => a == b
  | .directive a, .directive b => a == b
  | _, _ => false

instance : BEq Subject := ⟨eq⟩

/-- What a caller can get hold of: what a program builds, what a shape stands for, and what is read
of any text. The maps that a caller gives hold each of their keys once. A program that goes on from
what was read is no further case, since whatever is read can be built. -/
inductive Obtained : Subject → Prop where
  | built {program : Program} {n : Node} (hp : program.Distinct)
      (h : program.child.result = .ok n) : Obtained (.node n)
  | shapedVariable {shape : VariableShape} {d : VariableDefinition} (hs : shape.Distinct)
      (h : VariableDefinition.ofShape shape = .ok d) : Obtained (.variableDefinition d)
  | shapedDirective {shape : DirectiveShape} {d : Directive} (hs : shape.Distinct)
      (h : Directive.ofShape shape = .ok d) : Obtained (.directive d)
  | decoded {k : Kind} {text : String} {x : Subject} (h : k.decode text = .ok x) : Obtained x

def WellFormed : Subject → Prop
  | .node n => n.WellFormed
  | .variableDefinition d => d.WellFormed
  | .directive d => d.WellFormed

theorem Kind.subject_wellFormed {k : Kind} {c : k.slot.Content} (h : k.slot.WellFormed c) :
    (k.subject c).WellFormed := by
  cases k <;> exact h

theorem Obtained.wellFormed {x : Subject} (h : x.Obtained) : x.WellFormed := by
  cases h with
  | built hp h => exact Program.child_wellFormed _ hp h
  | shapedVariable hs h => exact VariableDefinition.wellFormed_of_ofShape hs h
  | shapedDirective hs h => exact Directive.wellFormed_of_ofShape hs h
  | decoded h =>
    obtain ⟨c, hc, rfl⟩ := Outcome.map_eq_ok.1 h
    exact Kind.subject_wellFormed (decode_wellFormed hc)

def isFinite : Subject → Bool
  | .node n => n.isFinite
  | .variableDefinition d => d.isFinite
  | .directive d => d.isFinite

def operations : Subject → List Operation
  | .node (.document d) => d.definitions.filterMap Definition.operation?
  | .node (.operation o) => [o]
  | _ => []

/-- All floats are finite, and no operation keeps a variable under a name that begins with a dollar
sign. -/
structure Stable (x : Subject) : Prop where
  finite : x.isFinite = true
  plain : ∀ o ∈ x.operations, o.Plain

/-- What comes back: the subject itself if its floats are finite, but with the variables of each
operation declared once more. -/
def restored : Subject → Reads Subject
  | .node (.document d) => (fun d => .node (.document d)) <$> d.restored
  | .node (.operation o) => (fun o => .node (.operation o)) <$> o.restored
  | x => onlyIf x.isFinite x

/-- Whatever is written has only literals that are read back. -/
theorem sound_toJson (x : Subject) : x.toJson.Sound := by
  cases x with
  | node n => exact n.sound_toJson
  | variableDefinition d => exact d.sound_toJson
  | directive d => exact d.sound_toJson

/-- What comes back of the text is what is read of the tree. -/
theorem roundTrip_eq_restored {x : Subject} (h : x.WellFormed) : x.roundTrip = x.restored := by
  rw [roundTrip, Kind.decode, decode_write x.sound_toJson]
  cases x with
  | variableDefinition d => exact map_eq_onlyIf (VariableDefinition.read_toJson h .strict) _
  | directive d => exact map_eq_onlyIf (Directive.read_toJson h .strict) _
  | node n =>
    cases n with
    | document d => exact congrArg _ (Document.read_toJson h .strict)
    | operation o => exact congrArg _ (Operation.read_members h .strict)
    | field f => exact map_eq_onlyIf (Field.read_members f h .strict) _
    | fragmentDefinition f => exact map_eq_onlyIf (FragmentDefinition.read_members h .strict) _
    | fragmentSpread s => exact map_eq_onlyIf (FragmentSpread.read_members h .strict) _
    | inlineFragment f => exact map_eq_onlyIf (InlineFragment.read_members f h .strict) _

/-- Without operations only a float can be lost. -/
theorem exact_onlyIf {x : Subject} (h : x.operations = []) :
    Exact (onlyIf x.isFinite x) x x.Stable := by
  refine (Exact.onlyIf x.isFinite x).congr ⟨fun hf => ⟨hf, ?_⟩, Stable.finite⟩
  intro o ho
  rw [h] at ho
  cases ho

theorem exact_restored {x : Subject} (h : x.WellFormed) : Exact x.restored x x.Stable := by
  cases x with
  | variableDefinition d => exact exact_onlyIf rfl
  | directive d => exact exact_onlyIf rfl
  | node n =>
    cases n with
    | field f => exact exact_onlyIf rfl
    | fragmentDefinition f => exact exact_onlyIf rfl
    | fragmentSpread s => exact exact_onlyIf rfl
    | inlineFragment f => exact exact_onlyIf rfl
    -- Only an operation has variables to redeclare, alone or in a document.
    | operation o =>
      have hexact := (Operation.exact_restored h).map (f := fun o => Subject.node (.operation o))
        fun _ => rfl
      refine hexact.congr ⟨fun hp => ⟨hp.1, ?_⟩, fun hs => ⟨hs.finite, ?_⟩⟩
      · simpa [operations] using hp.2
      · exact hs.plain o (by simp [operations])
    | document d =>
      have hexact := (Document.exact_restored h).map (f := fun d => Subject.node (.document d))
        fun _ => rfl
      refine hexact.congr ⟨fun hp => ⟨?_, ?_⟩, fun hs x hx => ⟨?_, ?_⟩⟩
      · exact List.all_eq_true.2 fun x hx => (hp x hx).1
      · intro o ho
        obtain ⟨x, hx, hox⟩ := List.mem_filterMap.1 ho
        exact (hp x hx).2 o hox
      · exact List.all_eq_true.1 hs.finite x hx
      · exact fun o ho => hs.plain o (List.mem_filterMap.2 ⟨x, hx, ho⟩)

theorem eq_of_onlyIf {p : Bool} {x y : Subject} (h : onlyIf p x = .ok y) : y = x := by
  cases p with
  | true => exact (Except.ok.inj h).symm
  | false => cases h

/-- A subject with finite floats is equal to itself, so it makes sense to ask for it back. -/
theorem beq_self {x : Subject} (h : x.WellFormed) (hf : x.isFinite = true) :
    (x == x) = true := by
  cases x with
  | node n => exact n.eq_self h hf
  | variableDefinition d => exact d.eq_self h hf
  | directive d => exact d.beq_self h hf

/-- Exactly the stable subjects come back as something equal, and these come back as they were, with
the entries of every map in their order, so that they are rendered alike. No default and a default
of null are never taken for each other. -/
theorem roundTrip_eq_iff_stable {x : Subject} (h : x.Obtained) :
    ((∃ y, x.roundTrip = .ok y ∧ (y == x) = true) ↔ x.Stable) ∧
      (x.Stable → x.roundTrip = .ok x) ∧
      x.roundTrip = x.restored ∧
      ∀ (d : VariableDefinition) (y z : Subject),
        x = .variableDefinition { d with default := none } → x.roundTrip = .ok y →
          (Subject.variableDefinition { d with default := some .null }).roundTrip = .ok z →
            (y == z) = false := by
  have hw := h.wellFormed
  have hexact := exact_restored hw
  rw [roundTrip_eq_restored hw]
  refine ⟨⟨fun ⟨y, hy, he⟩ => hexact.only y hy he, fun hs => ?_⟩, hexact.restores, rfl, ?_⟩
  · exact ⟨x, hexact.restores hs, beq_self hw hs.finite⟩
  · rintro d y z rfl hy hz
    have hnull : (Subject.variableDefinition { d with default := some .null }).WellFormed :=
      VariableDefinition.WellFormed.withDefault hw trivial
    rw [roundTrip_eq_restored hnull] at hz
    obtain rfl := eq_of_onlyIf hy
    obtain rfl := eq_of_onlyIf hz
    change VariableDefinition.eq _ _ = false
    simp [VariableDefinition.eq, VariableDefinition.eqDefault]

/-- Two variables, one of which was declared with a second dollar sign. -/
def sampleOperation : Operation :=
  { kind := .query
    declared := [("$a", { type := "Int" }), ("a", { type := "ID", default := some .null })]
    selections := [.unknown] }

def sampleProgram : Program :=
  .definition (.operation .query none
    [.declare "$$a" (.type "Int"), .declare "$a" (.withDefault "ID" .null), .select .unknown])

/-- The two variables become one, which has the place of the first and the type of the second. -/
theorem roundTrip_eq_iff_stable_of_dollar :
    (Subject.node (.operation sampleOperation)).Obtained ∧
      (Subject.node (.operation sampleOperation)).roundTrip =
        .ok (.node (.operation
          { sampleOperation with declared := [("a", { type := "ID", default := some .null })] })) ∧
      ¬ ∃ y, (Subject.node (.operation sampleOperation)).roundTrip = .ok y ∧
        (y == Subject.node (.operation sampleOperation)) = true := by
  have hdistinct : sampleProgram.Distinct := by
    simp [sampleProgram, Program.Distinct, DefinitionProgram.Distinct, OperationStep.Distinct,
      VariableShape.Distinct, Value.Distinct, SelectionStep.Distinct]
  have hresult : sampleProgram.child.result = .ok (.operation sampleOperation) := rfl
  have hobtained : (Subject.node (.operation sampleOperation)).Obtained :=
    .built hdistinct hresult
  have hround := roundTrip_eq_iff_stable hobtained
  refine ⟨hobtained, hround.2.2.1.trans rfl, fun h => ?_⟩
  have hplain := (hround.1.1 h).plain sampleOperation (by simp [operations])
  exact hplain "$a" (by decide) rfl

end Subject
end QueryDocument
