import Mathlib.Data.List.Forall2
import QueryDocument.Proofs.Construction.Rebuild

/-!
Where the children of a built node come from: each was left by a step of the block that the node was
built in, in the order of the steps, and what stands below a child by the steps of the child's own
block. A step whose failure was swallowed leaves nothing. An unknown child is left only by a step
that adds one.
-/
namespace QueryDocument

open Build

namespace Build

def FieldStep.selecting? : FieldStep → Option SelectionStep
  | .attempt step => step.selecting?
  | .select step => some step
  | _ => none

def FragmentStep.selecting? : FragmentStep → Option SelectionStep
  | .attempt step => step.selecting?
  | .select step => some step
  | _ => none

def OperationStep.selecting? : OperationStep → Option SelectionStep
  | .attempt step => step.selecting?
  | .select step => some step
  | _ => none

end Build

mutual
/-- The selection may have been left by the step. -/
inductive Selection.LeftBy : Selection → SelectionStep → Prop
  | leaf (name : String) (f : Field) (h : f.selections = []) : LeftBy (.field f) (.field name)
  | field (name : String) (block : List FieldStep) (f : Field)
    (h : List.SublistForall₂ LeftBy f.selections (block.filterMap FieldStep.selecting?)) :
    LeftBy (.field f) (.fieldWith name block)
  | spread (name : String) (s : FragmentSpread) : LeftBy (.spread s) (.spread name)
  | spreadWith (name : String) (shapes : List DirectiveShape) (s : FragmentSpread) :
    LeftBy (.spread s) (.spreadWith name shapes)
  | inlineFragment (type : Option String) (block : List FragmentStep) (f : InlineFragment)
    (h : List.SublistForall₂ LeftBy f.selections (block.filterMap FragmentStep.selecting?)) :
    LeftBy (.inlineFragment f) (.inlineFragment type block)
  | built (program : SelectionProgram) (s : Selection) (h : BuiltBy s program) :
    LeftBy s (.add program)
  | unknown : LeftBy .unknown .unknown

inductive Selection.BuiltBy : Selection → SelectionProgram → Prop
  | field (name : String) (block : List FieldStep) (f : Field)
    (h : List.SublistForall₂ LeftBy f.selections (block.filterMap FieldStep.selecting?)) :
    BuiltBy (.field f) (.field name block)
  | spread (name : String) (block : List SpreadStep) (s : FragmentSpread) :
    BuiltBy (.spread s) (.spread name block)
  | spreadWith (name : String) (shapes : List DirectiveShape) (s : FragmentSpread) :
    BuiltBy (.spread s) (.spreadWith name shapes)
  | inlineFragment (type : Option String) (block : List FragmentStep) (f : InlineFragment)
    (h : List.SublistForall₂ LeftBy f.selections (block.filterMap FragmentStep.selecting?)) :
    BuiltBy (.inlineFragment f) (.inlineFragment type block)
end

def Definition.BuiltBy : Definition → DefinitionProgram → Prop
  | .operation o, .operation _ _ block =>
    List.SublistForall₂ Selection.LeftBy o.selections (block.filterMap OperationStep.selecting?)
  | .fragment f, .fragment _ _ block =>
    List.SublistForall₂ Selection.LeftBy f.selections (block.filterMap FragmentStep.selecting?)
  | _, _ => False

def Definition.LeftBy (d : Definition) : DocumentStep → Prop
  | .look => False
  | .attempt step => d.LeftBy step
  | .operation kind name block => d.BuiltBy (.operation kind name block)
  | .fragment name type block => d.BuiltBy (.fragment name type block)
  | .add program => d.BuiltBy program
  | .unknown => d = .unknown

def Node.BuiltBy : Node → Program → Prop
  | .document d, .document block => List.SublistForall₂ Definition.LeftBy d.definitions block
  | .operation o, .definition program => (Definition.operation o).BuiltBy program
  | .fragmentDefinition f, .definition program => (Definition.fragment f).BuiltBy program
  | .field f, .selection program => (Selection.field f).BuiltBy program
  | .fragmentSpread s, .selection program => (Selection.spread s).BuiltBy program
  | .inlineFragment f, .selection program => (Selection.inlineFragment f).BuiltBy program
  | _, _ => False

namespace Build

variable {σ τ ξ ρ : Type} {R : ξ → ρ → Prop} {view : σ → List ξ}

namespace Action

/-- The action leaves the list of children alone or puts one at its end, which `origin` explains. -/
def Grows (R : ξ → ρ → Prop) (view : σ → List ξ) (origin : Option ρ) (a : Action σ) : Prop :=
  ∀ s, view (a s).state = view s ∨
    ∃ step x, origin = some step ∧ R x step ∧ view (a s).state = view s ++ [x]

theorem grows_look [Visible σ] (origin : Option ρ) : Grows R view origin (look : Action σ) :=
  fun _ => .inl rfl

theorem Grows.attempt {origin : Option ρ} {a : Action σ} (h : Grows R view origin a) :
    Grows R view origin a.attempt := h

theorem grows_ofChange [Visible σ] {c : Change σ Unit} (origin : Option ρ)
    (h : ∀ s, view (c.left s) = view s) : Grows R view origin (ofChange c) := fun s => .inl (h s)

/-- Directives are no children. -/
theorem grows_directive [Annotated σ] [Visible σ] (origin : Option ρ)
    (h : ∀ d s, view (Annotated.annotate d s) = view s) (shape : DirectiveShape) :
    Grows R view origin (ofChange (addDirective shape)) :=
  grows_ofChange origin ((addDirective_puts shape).view_left h)

/-- The child that an action adds is explained by the step that built it, and a child that could
not be built is not added. -/
theorem grows_adopt [Visible σ] {add : ξ → σ → σ} {child : Child ξ} {step : ρ}
    (h : ∀ x s, view (add x s) = view s ++ [x]) (hc : ∀ x, child.result = .ok x → R x step) :
    Grows R view (some step) (adopt add child) := by
  intro s
  have hput := Change.puts_bind child.result add
  cases hx : child.result with
  | error e => exact .inl (congrArg view (hput.left_of_error hx s))
  | ok x =>
    exact .inr ⟨step, x, rfl, hc x hx, (congrArg view (hput.left_of_ok hx s)).trans (h x s)⟩

/-- After a block, whether it succeeded or not, there are more children, each explained. -/
theorem runAll_grows {act : τ → Action σ} {origin : τ → Option ρ} {steps : List τ}
    (h : ∀ step ∈ steps, Grows R view (origin step) (act step)) (s : σ) :
    ∃ new, view (runAll (steps.map act) s).state = view s ++ new ∧
      List.SublistForall₂ R new (steps.filterMap origin) := by
  induction steps generalizing s with
  | nil => exact ⟨[], by simp, .nil⟩
  | cons step steps ih =>
    rw [List.forall_mem_cons] at h
    have hstep : ∃ new, view (act step s).state = view s ++ new ∧
        ∀ rest os, List.SublistForall₂ R rest os →
          List.SublistForall₂ R (new ++ rest) ((origin step).toList ++ os) := by
      rcases h.1 s with hs | ⟨o, x, ho, hx, hs⟩
      · refine ⟨[], by simpa using hs, fun rest os hr => ?_⟩
        cases origin step with
        | none => exact hr
        | some o => exact .cons_right hr
      · refine ⟨[x], hs, fun rest os hr => ?_⟩
        rw [ho]
        exact .cons hx hr
    obtain ⟨new, hnew, hsub⟩ := hstep
    have hcons : (step :: steps).filterMap origin =
        (origin step).toList ++ steps.filterMap origin := by
      cases ho : origin step <;> simp [ho]
    rw [hcons, List.map_cons]
    cases hf : (act step s).failure with
    | some e =>
      rw [runAll_cons_of_failure hf]
      refine ⟨new, hnew, ?_⟩
      simpa using hsub [] _ .nil
    | none =>
      rw [runAll_cons_of_success hf]
      obtain ⟨rest, hrest, hr⟩ := ih h.2 (act step s).state
      refine ⟨new ++ rest, ?_, hsub rest _ hr⟩
      rw [hrest, hnew, List.append_assoc]

end Action

open QueryDocument.Build.Action

/-- The children of what is closed, where the block began without any. -/
theorem Child.children_of_build {act : τ → Action σ} {origin : τ → Option ρ} {steps : List τ}
    {start : Built σ} {close : σ → Built σ} {a : σ}
    (h : (Child.build start (steps.map act) close).result = .ok a)
    (hs : ∀ s, start = .ok s → view s = []) (hc : ∀ s, close s = .ok a → a = s)
    (hg : ∀ step ∈ steps, Grows R view (origin step) (act step)) :
    List.SublistForall₂ R (view a) (steps.filterMap origin) := by
  obtain ⟨s, hstart, -, hclose⟩ := Child.result_build h
  obtain ⟨new, hnew, hsub⟩ := runAll_grows hg s
  rw [hc _ hclose, hnew, hs s hstart]
  exact hsub

/-- Closing changes nothing. -/
theorem close_eq (f f' : InlineFragment) (h : f.close = .ok f') : f' = f := by
  unfold InlineFragment.close at h
  split at h
  · cases h
  · cases h
    rfl

/-- A node begins without children, so all that it has come from its block. -/
theorem selections_of_fieldNew (name : String) (f : Field) (h : Field.new name = .ok f) :
    f.selections = [] := by
  unfold Field.new at h
  split at h
  · cases h
  · cases h
    rfl

/-- The steps between may have failed, but the order is that of the block. -/
theorem children_of_field {name : String} {block : List FieldStep} {f : Field}
    (hb : ∀ step ∈ block,
      Grows Selection.LeftBy Field.selections step.selecting? step.action)
    (h : (fieldChild name (FieldStep.actions block)).result = .ok f) :
    List.SublistForall₂ Selection.LeftBy f.selections (block.filterMap FieldStep.selecting?) := by
  rw [FieldStep.actions_eq_map] at h
  exact Child.children_of_build h (selections_of_fieldNew name)
    (fun s hs => (Except.ok.inj hs).symm) hb

theorem children_of_inlineFragment {type : Option String} {block : List FragmentStep}
    {f : InlineFragment}
    (hb : ∀ step ∈ block,
      Grows Selection.LeftBy InlineFragment.selections step.selecting? step.inPlace)
    (h : (inlineFragmentChild type (FragmentStep.allInPlace block)).result = .ok f) :
    List.SublistForall₂ Selection.LeftBy f.selections
      (block.filterMap FragmentStep.selecting?) := by
  rw [FragmentStep.allInPlace_eq_map] at h
  exact Child.children_of_build h (by rintro _ ⟨⟩; rfl) (fun s hs => close_eq s f hs) hb

mutual
theorem FieldStep.grows : (step : FieldStep) →
    Grows Selection.LeftBy Field.selections step.selecting? step.action
  | .look => grows_look _
  | .attempt step => (FieldStep.grows step).attempt
  | .directive shape => grows_directive _ (fun _ _ => rfl) shape
  | .label text => grows_ofChange _ ((Field.setLabel_puts text).view_left fun _ _ => rfl)
  | .argument name v =>
    grows_ofChange _ ((Field.addArgument_puts name v).view_left fun _ _ => rfl)
  | .arguments args => grows_ofChange _ ((Field.setArguments_puts args).view_left fun _ _ => rfl)
  | .select step => grows_adopt (fun _ _ => rfl) (SelectionStep.leftBy_of_child step)

theorem FieldStep.allGrow : (steps : List FieldStep) → ∀ step ∈ steps,
    Grows Selection.LeftBy Field.selections step.selecting? step.action
  | [] => by simp
  | step :: steps => List.forall_mem_cons.2 ⟨FieldStep.grows step, FieldStep.allGrow steps⟩

theorem FragmentStep.growsInPlace : (step : FragmentStep) →
    Grows Selection.LeftBy InlineFragment.selections step.selecting? step.inPlace
  | .look => grows_look _
  | .attempt step => (FragmentStep.growsInPlace step).attempt
  | .directive shape => grows_directive _ (fun _ _ => rfl) shape
  | .select step => grows_adopt (fun _ _ => rfl) (SelectionStep.leftBy_of_child step)

theorem FragmentStep.allGrowInPlace : (steps : List FragmentStep) → ∀ step ∈ steps,
    Grows Selection.LeftBy InlineFragment.selections step.selecting? step.inPlace
  | [] => by simp
  | step :: steps => List.forall_mem_cons.2
    ⟨FragmentStep.growsInPlace step, FragmentStep.allGrowInPlace steps⟩

/-- By recursion, since what stands below the child comes from the blocks in the step. -/
theorem SelectionStep.leftBy_of_child : (step : SelectionStep) → ∀ x,
    step.child.result = .ok x → x.LeftBy step
  | .field name, x, h => by
    obtain ⟨f, hf, rfl⟩ := Child.result_map h
    exact .leaf name f (selections_of_fieldNew name f hf)
  | .fieldWith name block, x, h => by
    obtain ⟨f, hf, rfl⟩ := Child.result_map h
    exact .field name block f (children_of_field (FieldStep.allGrow block) hf)
  | .spread name, x, h => by
    obtain ⟨s, -, rfl⟩ := Child.result_map h
    exact .spread name s
  | .spreadWith name ds, x, h => by
    obtain ⟨s, -, rfl⟩ := Child.result_map h
    exact .spreadWith name ds s
  | .inlineFragment type block, x, h => by
    obtain ⟨f, hf, rfl⟩ := Child.result_map h
    exact .inlineFragment type block f
      (children_of_inlineFragment (FragmentStep.allGrowInPlace block) hf)
  | .add program, x, h => .built program x (SelectionProgram.builtBy_of_child program x h)
  | .unknown, x, h => by
    cases h
    exact .unknown

theorem SelectionProgram.builtBy_of_child : (program : SelectionProgram) → ∀ x,
    program.child.result = .ok x → x.BuiltBy program
  | .field name block, x, h => by
    obtain ⟨f, hf, rfl⟩ := Child.result_map h
    exact .field name block f (children_of_field (FieldStep.allGrow block) hf)
  | .spread name block, x, h => by
    obtain ⟨s, -, rfl⟩ := Child.result_map h
    exact .spread name block s
  | .spreadWith name ds, x, h => by
    obtain ⟨s, -, rfl⟩ := Child.result_map h
    exact .spreadWith name ds s
  | .inlineFragment type block, x, h => by
    obtain ⟨f, hf, rfl⟩ := Child.result_map h
    exact .inlineFragment type block f
      (children_of_inlineFragment (FragmentStep.allGrowInPlace block) hf)
end

theorem FragmentStep.growsDefinition (step : FragmentStep) :
    Grows Selection.LeftBy FragmentDefinition.selections step.selecting? step.defining := by
  match step with
  | .look => exact grows_look _
  | .attempt step => exact (FragmentStep.growsDefinition step).attempt
  | .directive shape => exact grows_directive _ (fun _ _ => rfl) shape
  | .select step => exact grows_adopt (fun _ _ => rfl) (SelectionStep.leftBy_of_child step)

/-- Declaring variables, even in part, does not touch the selections. -/
theorem setVariables_selections (ds : List (String × VariableShape)) (o : Operation) :
    ((Operation.setVariables ds).left o).selections = o.selections := by
  obtain ⟨declared, ho⟩ := Operation.exists_left_setVariables ds o
  rw [ho]

/-- Of the steps of an operation only one that selects adds a child. -/
theorem OperationStep.grows (step : OperationStep) :
    Grows Selection.LeftBy Operation.selections step.selecting? step.action := by
  induction step with
  | look => exact grows_look _
  | attempt step ih => exact ih.attempt
  | directive shape => exact grows_directive _ (fun _ _ => rfl) shape
  | directives shapes =>
    exact grows_ofChange _ ((Operation.setDirectives_puts shapes).view_left fun _ _ => rfl)
  | declare name shape =>
    exact grows_ofChange _ ((Operation.addVariable_puts name shape).view_left fun _ _ => rfl)
  | declareAll ds => exact grows_ofChange _ (setVariables_selections ds)
  | select step => exact grows_adopt (fun _ _ => rfl) (SelectionStep.leftBy_of_child step)

theorem selections_of_operationNew (kind : OperationKind) (name : Option String) (o : Operation)
    (h : Operation.new kind name = .ok o) : o.selections = [] := by
  unfold Operation.new at h
  split at h
  · cases h
  · cases h
    rfl

theorem selections_of_fragmentNew (name type : String) (f : FragmentDefinition)
    (h : FragmentDefinition.new name type = .ok f) : f.selections = [] := by
  unfold FragmentDefinition.new at h
  split at h
  · cases h
  · split at h
    · cases h
    · cases h
      rfl

theorem children_of_operation {kind : OperationKind} {name : Option String}
    {block : List OperationStep} {o : Operation}
    (h : (operationChild kind name block).result = .ok o) :
    List.SublistForall₂ Selection.LeftBy o.selections
      (block.filterMap OperationStep.selecting?) := by
  exact Child.children_of_build h (selections_of_operationNew kind name)
    (fun s hs => (Except.ok.inj hs).symm) fun step _ => OperationStep.grows step

theorem children_of_fragment {name type : String} {block : List FragmentStep}
    {f : FragmentDefinition} (h : (fragmentChild name type block).result = .ok f) :
    List.SublistForall₂ Selection.LeftBy f.selections
      (block.filterMap FragmentStep.selecting?) := by
  exact Child.children_of_build h (selections_of_fragmentNew name type)
    (fun s hs => (Except.ok.inj hs).symm) fun step _ => FragmentStep.growsDefinition step

/-- Every selection of a definition is explained by a step of its block. -/
theorem DefinitionProgram.builtBy_of_child (program : DefinitionProgram) (d : Definition)
    (h : program.child.result = .ok d) : d.BuiltBy program := by
  cases program with
  | operation kind name block =>
    obtain ⟨o, ho, rfl⟩ := Child.result_map h
    exact children_of_operation ho
  | fragment name type block =>
    obtain ⟨f, hf, rfl⟩ := Child.result_map h
    exact children_of_fragment hf

/-- Every step of a document that adds a definition explains the one that it adds. -/
theorem DocumentStep.grows (step : DocumentStep) :
    Grows Definition.LeftBy Document.definitions (some step) step.action := by
  induction step with
  | look => exact grows_look _
  | attempt step ih =>
    intro s
    rcases ih s with hs | ⟨o, x, ho, hx, hs⟩
    · exact .inl hs
    · cases ho
      exact .inr ⟨_, x, rfl, hx, hs⟩
  | operation kind name block =>
    exact grows_adopt (fun _ _ => rfl)
      (DefinitionProgram.builtBy_of_child (.operation kind name block))
  | fragment name type block =>
    exact grows_adopt (fun _ _ => rfl)
      (DefinitionProgram.builtBy_of_child (.fragment name type block))
  | add program =>
    exact grows_adopt (fun _ _ => rfl) (DefinitionProgram.builtBy_of_child program)
  | unknown =>
    refine grows_adopt (fun _ _ => rfl) fun x hx => ?_
    cases hx
    rfl

theorem children_of_document {block : List DocumentStep} {d : Document}
    (h : (documentChild block).result = .ok d) :
    List.SublistForall₂ Definition.LeftBy d.definitions block := by
  have hc : List.SublistForall₂ Definition.LeftBy d.definitions (block.filterMap some) :=
    Child.children_of_build h (by rintro _ ⟨⟩; rfl) (fun s hs => (Except.ok.inj hs).symm)
      fun step _ => DocumentStep.grows step
  simpa using hc

/-- A node that was built is explained by its program from top to bottom. -/
theorem Program.builtBy_of_child (program : Program) (node : Node)
    (h : program.child.result = .ok node) : node.BuiltBy program := by
  match program with
  | .document block =>
    obtain ⟨d, hd, rfl⟩ := Child.result_map h
    exact children_of_document hd
  | .definition (.operation kind name block) =>
    obtain ⟨o, ho, rfl⟩ := Child.result_map h
    exact children_of_operation ho
  | .definition (.fragment name type block) =>
    obtain ⟨f, hf, rfl⟩ := Child.result_map h
    exact children_of_fragment hf
  | .selection (.field name block) =>
    obtain ⟨f, hf, rfl⟩ := Child.result_map h
    exact .field name block f (children_of_field (FieldStep.allGrow block) hf)
  | .selection (.spread name block) =>
    obtain ⟨s, -, rfl⟩ := Child.result_map h
    exact .spread name block s
  | .selection (.spreadWith name ds) =>
    obtain ⟨s, -, rfl⟩ := Child.result_map h
    exact .spreadWith name ds s
  | .selection (.inlineFragment type block) =>
    obtain ⟨f, hf, rfl⟩ := Child.result_map h
    exact .inlineFragment type block f
      (children_of_inlineFragment (FragmentStep.allGrowInPlace block) hf)

end Build

/-- Builder programs reach exactly the well-formed nodes, and an unknown node only by a step that
adds one in that place. -/
theorem Node.reached_iff_wellFormed (node : Node) :
    ((∃ program : Program, program.Distinct ∧ program.child.result = .ok node) ↔
      node.WellFormed) ∧
      ∀ program : Program, program.child.result = .ok node → node.BuiltBy program := by
  refine ⟨⟨?_, fun h => ⟨node.rebuild, node.rebuild_distinct h, node.child_rebuild h⟩⟩,
    fun program h => program.builtBy_of_child node h⟩
  rintro ⟨program, hd, hr⟩
  exact program.child_wellFormed hd hr

/-- A swallowed failure leaves nothing beside the unknown selection that was added. -/
theorem Node.reached_iff_wellFormed_of_attempt :
    (Program.definition (.operation .query none
      [.attempt (.select (.field "")), .select .unknown])).child.result =
        .ok (.operation { kind := .query, selections := [.unknown] }) ∧
      (Node.operation { kind := .query, selections := [.unknown] }).BuiltBy
        (.definition (.operation .query none
          [.attempt (.select (.field "")), .select .unknown])) :=
  ⟨rfl, (Node.reached_iff_wellFormed _).2 _ rfl⟩

end QueryDocument
