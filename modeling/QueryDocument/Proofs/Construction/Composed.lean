import QueryDocument.Proofs.Construction.Effect
import QueryDocument.Proofs.Construction.Faults
import QueryDocument.Proofs.Construction.Lawful
import QueryDocument.Render.Formatter

/-!
Builder programs are composed of the programs of their children. Each step that builds a child does
what building this child by itself and then adding it does; a node has the children that its steps
left, in order; and a build fails with the first of its faults, whatever block this stands in, or
not at all. No step does what depends on the state of the node but for adding to it, so that one
induction over a program, blocks and steps together, gives all of this.
-/
namespace QueryDocument

open Outcome (Reports)

namespace Build

variable {σ ξ α β : Type} {view : σ → List ξ}

theorem reports_failures (b : Built α) : Reports (failures b) b := by
  cases b with
  | ok a => exact .ok a
  | error e => exact .error e

theorem reports_absent (text : String) (e : BuildError) (a : α) :
    Reports (absent text e) (if text.isEmpty then .error e else .ok a) := by
  unfold absent
  by_cases h : text = ""
  · rw [if_pos h, if_pos (String.isEmpty_iff.2 h)]
    exact .error e
  · rw [if_neg h, if_neg (by simpa using h)]
    exact .ok a

theorem reports_shapes (shapes : List DirectiveShape) :
    Reports (shapeFaults shapes) (Directive.ofShapes shapes) :=
  .mapM (fun shape => reports_failures (Directive.ofShape shape)) shapes

/-- Only a missing name hides the faults of the shape. -/
theorem reports_declaration (name : String) (shape : VariableShape) :
    Reports (variableFaults name shape) (Operation.declaration name shape) := by
  unfold variableFaults Operation.declaration
  split
  · exact .error _
  · exact reports_failures _

/-- A change that writes what `x` finds out fails as `x` does. -/
theorem failure_of_puts {c : Change σ Unit} {x : Built β} {put : β → σ → σ}
    {faults : List BuildError} (hc : c.Puts x put) (h : Reports faults x) (s : σ) :
    c.failure s = faults.head? := by
  cases hx : x with
  | ok y =>
    rw [hx] at h
    rw [hc.failure_of_ok hx, show faults = [] from h, List.head?_nil]
  | error e =>
    rw [hx] at h
    rw [hc.failure_of_error hx, show faults.head? = some e from h]

/-- The changes up to the first that fails fail as they would on any operation. -/
theorem failure_setVariables (ds : List (String × VariableShape)) (o : Operation) :
    (Operation.setVariables ds).failure o = (ds.flatMap fun d => variableFaults d.1 d.2).head? := by
  have hone (d : String × VariableShape) :=
    failure_of_puts (Operation.addVariable_puts d.1 d.2) (reports_declaration d.1 d.2)
  rw [Operation.failure_setVariables, Operation.addVariables]
  exact Change.failure_forM hone ds _

/-- On every node the action fails, does and leaves the same. -/
structure Acts (view : σ → List ξ) (a : Action σ) (faults : List BuildError) (trace : Trace)
    (left : Option ξ) : Prop where
  failure : ∀ s, (a s).failure = faults.head?
  trace : ∀ s, (a s).record.trace = trace
  leaves : ∀ s, view (a s).state = view s ++ left.toList

/-- On every node the block fails and does the same, and leaves the same if it does not fail. -/
structure Runs (view : σ → List ξ) (as : List (Action σ)) (faults : List BuildError)
    (traces : List Trace) (left : List ξ) : Prop where
  failure : ∀ s, (Action.runAll as s).failure = faults.head?
  trace : ∀ s, Record.traces (Action.runAll as s).records = traces
  leaves : faults = [] → ∀ s, view (Action.runAll as s).state = view s ++ left

structure Builds (child : Child α) (faults : List BuildError) (traces : List Trace) : Prop where
  result : Reports faults child.result
  trace : Record.traces child.records = traces

namespace Acts

theorem look [Visible σ] : Acts view Action.look [] .look none :=
  ⟨fun _ => rfl, fun _ => rfl, fun _ => (List.append_nil _).symm⟩

/-- An attempt does and leaves what its step does, and has no faults of its own. -/
theorem attempt {a : Action σ} {faults : List BuildError} {t : Trace} {left : Option ξ}
    (h : Acts view a faults t left) : Acts view a.attempt [] t left :=
  ⟨fun _ => rfl, h.trace, h.leaves⟩

theorem ofChange [Visible σ] {c : Change σ Unit} {faults : List BuildError}
    (h : ∀ s, c.failure s = faults.head?) (hv : ∀ s, view (c.left s) = view s) :
    Acts view (Action.ofChange c) faults (.change [] faults.head?) none :=
  ⟨h, fun s => congrArg (Trace.change []) (h s), fun s => (hv s).trans (List.append_nil _).symm⟩

/-- A change that leaves the children alone, and finds its faults without the node. -/
theorem ofPuts [Visible σ] {c : Change σ Unit} {x : Built β} {put : β → σ → σ}
    {faults : List BuildError} (hc : c.Puts x put) (h : Reports faults x)
    (hput : ∀ y s, view (put y s) = view s) :
    Acts view (Action.ofChange c) faults (.change [] faults.head?) none :=
  ofChange (failure_of_puts hc h) (hc.view_left hput)

theorem directive [Annotated σ] [Visible σ]
    (h : ∀ d s, view (Annotated.annotate d s) = view s) (shape : DirectiveShape) :
    Acts view (Action.ofChange (addDirective shape) : Action σ)
      (failures (Directive.ofShape shape))
      (.change [] (failures (Directive.ofShape shape)).head?) none :=
  ofPuts (addDirective_puts shape) (reports_failures _) h

/-- A child that cannot be built leaves nothing, and its faults are those of the step. -/
theorem adopt [Visible σ] {add : ξ → σ → σ} {child : Child ξ} {faults : List BuildError}
    {ts : List Trace} (h : Builds child faults ts)
    (hadd : ∀ x s, view (add x s) = view s ++ [x]) :
    Acts view (Action.adopt add child) faults (.change ts faults.head?)
      child.result.toOption := by
  have hput := Change.puts_bind child.result add
  have hfailure := failure_of_puts hput h.result
  refine ⟨hfailure, fun s => ?_, fun s => ?_⟩
  · exact congr (congrArg Trace.change h.trace) (hfailure s)
  · cases hx : child.result with
    | error e =>
      exact (congrArg view (hput.left_of_error hx s)).trans (List.append_nil _).symm
    | ok x => exact (congrArg view (hput.left_of_ok hx s)).trans (hadd x s)

end Acts

theorem filterMap_cons_toList (f : α → Option β) (x : α) (xs : List α) :
    (x :: xs).filterMap f = (f x).toList ++ xs.filterMap f := by
  cases h : f x <;> simp [h]

namespace Runs

theorem nil : Runs view [] [] [] [] :=
  ⟨fun _ => rfl, fun _ => rfl, fun _ _ => (List.append_nil _).symm⟩

/-- What comes after a fault is not run. It has no trace, and whatever it would have left does
not matter any more. -/
theorem cons {a : Action σ} {as : List (Action σ)} {faults later : List BuildError} {t : Trace}
    {ts : List Trace} {left : Option ξ} {rest : List ξ} (h : Acts view a faults t left)
    (hs : Runs view as later ts rest) :
    Runs view (a :: as) (faults ++ later) (t :: whenNone faults ts) (left.toList ++ rest) := by
  cases faults with
  | nil =>
    refine ⟨fun s => ?_, fun s => ?_, fun hn s => ?_⟩
    all_goals rw [Action.runAll_cons_of_success (h.failure s)]
    · exact hs.failure _
    · exact congrArg₂ List.cons (h.trace s) (hs.trace _)
    · exact (hs.leaves hn _).trans (by rw [h.leaves, List.append_assoc])
  | cons e faults =>
    refine ⟨fun s => ?_, fun s => ?_, fun hn => (nomatch hn)⟩
    all_goals rw [Action.runAll_cons_of_failure (h.failure s)]
    · rfl
    · exact congrArg₂ List.cons (h.trace s) rfl

/-- What the steps of a block leave, read off the steps. -/
theorem cons_filterMap {τ : Type} {step : τ} {steps : List τ} {left? : τ → Option ξ}
    {a : Action σ} {as : List (Action σ)} {faults later : List BuildError} {t : Trace}
    {ts : List Trace} (h : Acts view a faults t (left? step))
    (hs : Runs view as later ts (steps.filterMap left?)) :
    Runs view (a :: as) (faults ++ later) (t :: whenNone faults ts)
      ((step :: steps).filterMap left?) := by
  rw [filterMap_cons_toList]
  exact cons h hs

end Runs

namespace Builds

variable {faults : List BuildError} {ts : List Trace}

theorem pure {b : Built α} (h : Reports faults b) : Builds (Child.pure b) faults [] := ⟨h, rfl⟩

theorem map {child : Child α} (h : Builds child faults ts) (f : α → β) :
    Builds (child.map f) faults ts := by
  refine ⟨?_, h.trace⟩
  have hresult := h.result
  unfold Child.map
  cases hc : child.result with
  | error e =>
    rw [hc] at hresult
    exact hresult
  | ok a =>
    rw [hc] at hresult
    exact hresult

/-- First come the faults of starting, then those of the block, then those of closing, and after
each of them the rest is not tried. -/
theorem build {start : Built σ} {as : List (Action σ)} {close : σ → Built α}
    {before after : List BuildError} {left : List ξ} (hstart : Reports before start)
    (h : Runs view as faults ts left)
    (hclose : ∀ s, start = .ok s → faults = [] → Reports after (close (Action.runAll as s).state)) :
    Builds (Child.build start as close) (before ++ faults ++ after) (whenNone before ts) := by
  unfold Child.build
  cases start with
  | error e =>
    have hfirst : before.head? = some e := hstart
    cases before with
    | nil => cases hfirst
    | cons e' before => exact ⟨hfirst, rfl⟩
  | ok s =>
    have hnone : before = [] := hstart
    subst hnone
    have hfailure := h.failure s
    cases faults with
    | nil =>
      rw [List.head?_nil] at hfailure
      simp only [hfailure]
      exact ⟨hclose s rfl rfl, h.trace s⟩
    | cons e faults =>
      rw [List.head?_cons] at hfailure
      simp only [hfailure]
      exact ⟨rfl, h.trace s⟩

/-- A node that is finished where its block ends. -/
theorem build_ok {start : Built σ} {as : List (Action σ)} {before : List BuildError}
    {left : List ξ} (hstart : Reports before start) (h : Runs view as faults ts left) :
    Builds (Child.build start as .ok) (before ++ faults) (whenNone before ts) := by
  have hbuild : Builds (Child.build start as .ok) (before ++ faults ++ []) (whenNone before ts) :=
    build hstart h fun _ _ _ => .ok _
  rwa [List.append_nil] at hbuild

end Builds

open QueryDocument.Build.Action

theorem SpreadStep.acts (step : SpreadStep) :
    Acts (fun _ => ([] : List Unit)) step.action step.faults step.trace none := by
  induction step with
  | look => exact .look
  | attempt step ih => exact ih.attempt
  | directive shape => exact .directive (fun _ _ => rfl) shape

theorem SpreadStep.runs (steps : List SpreadStep) :
    Runs (fun _ => ([] : List Unit)) (steps.map SpreadStep.action)
      (steps.flatMap SpreadStep.faults) (SpreadStep.traces steps) [] := by
  induction steps with
  | nil => exact .nil
  | cons step steps ih => exact .cons step.acts ih

theorem spreadChild_builds (name : String) (block : List SpreadStep) :
    Builds (spreadChild name block)
      (absent name (.missingName .fragmentSpread) ++ block.flatMap SpreadStep.faults)
      (whenNone (absent name (.missingName .fragmentSpread)) (SpreadStep.traces block)) :=
  .build_ok (reports_absent name _ _) (SpreadStep.runs block)

theorem spreadWithChild_builds (name : String) (shapes : List DirectiveShape) :
    Builds (spreadWithChild name shapes) (spreadFaults name shapes) [] :=
  .pure ((reports_absent name _ _).bind fun _ => (reports_shapes shapes).pure)

theorem FragmentStep.EffectInPlace.typeCondition_eq {step : FragmentStep}
    {f f' : InlineFragment} (h : step.EffectInPlace f f') :
    f'.typeCondition = f.typeCondition := by
  match step, h with
  | .look, h => rw [h]
  | .attempt step, .inl h => rw [h]
  | .attempt step, .inr h => exact FragmentStep.EffectInPlace.typeCondition_eq h
  | .directive _, ⟨_, _, h⟩ => rw [h]
  | .select _, ⟨_, _, h⟩ => rw [h]

theorem Leads.typeCondition_eq {steps : List FragmentStep} {f f' : InlineFragment}
    (h : Leads FragmentStep.EffectInPlace steps f f') : f'.typeCondition = f.typeCondition := by
  induction h with
  | nil => rfl
  | cons h _ ih => exact ih.trans h.typeCondition_eq

/-- The error on closing tells the type condition that the fragment was opened with. -/
theorem typeCondition_runAll (block : List FragmentStep) (f : InlineFragment) :
    (runAll (FragmentStep.allInPlace block) f).state.typeCondition = f.typeCondition := by
  rw [FragmentStep.allInPlace_eq_map]
  obtain ⟨done, rest, -, hleads, -⟩ := runAll_leads
    (fun step (_ : step ∈ block) => step.framedInPlace) f
  exact hleads.typeCondition_eq

/-- An inline fragment cannot fail to start, but is refused at the end if no selection was left
in it. -/
theorem inlineFragmentChild_builds {type : Option String} {block : List FragmentStep}
    {faults : List BuildError} {ts : List Trace} {left : List Selection} {selects : Bool}
    (h : Runs InlineFragment.selections (FragmentStep.allInPlace block) faults ts left)
    (hleft : left.isEmpty = !selects) :
    Builds (inlineFragmentChild type (FragmentStep.allInPlace block))
      (faults ++ emptyFaults type selects) ts := by
  have hstart : Reports [] (.ok (InlineFragment.new type) : Built InlineFragment) := .ok _
  refine .build hstart h fun f hf hn => ?_
  cases hf
  have hselections :
      (runAll (FragmentStep.allInPlace block) (InlineFragment.new type)).state.selections = left :=
    h.leaves hn _
  unfold InlineFragment.close emptyFaults
  rw [hselections, hleft, typeCondition_runAll]
  cases selects with
  | true => exact .ok _
  | false => exact .error _

/-- There is a child exactly if it has no fault. -/
theorem Builds.isSome_toOption {child : Child α} {faults : List BuildError} {ts : List Trace}
    (h : Builds child faults ts) : child.result.toOption.isSome = faults.isEmpty := by
  have hresult := h.result
  cases hc : child.result with
  | error e =>
    rw [hc] at hresult
    cases faults with
    | nil => cases hresult
    | cons e faults => rfl
  | ok a =>
    rw [hc] at hresult
    rw [show faults = [] from hresult]
    rfl

mutual
/-- By recursion over the step, the blocks of its selections included. No case looks at the
field. -/
theorem FieldStep.acts : (step : FieldStep) →
    Acts Field.selections step.action step.faults step.trace step.left?
  | .look => .look
  | .attempt step => (FieldStep.acts step).attempt
  | .directive shape => .directive (fun _ _ => rfl) shape
  | .label text =>
    .ofPuts (Field.setLabel_puts text) (reports_absent text _ _) fun _ _ => rfl
  | .argument name v =>
    .ofPuts (Field.addArgument_puts name v) (reports_absent name _ _) fun _ _ => rfl
  | .arguments args =>
    .ofPuts (Field.setArguments_puts args) (reports_failures _) fun _ _ => rfl
  | .select step => .adopt (SelectionStep.builds step) fun _ _ => rfl

theorem FieldStep.runs : (steps : List FieldStep) →
    Runs Field.selections (FieldStep.actions steps) (FieldStep.faultsOfAll steps)
      (FieldStep.traces steps) (steps.filterMap FieldStep.left?)
  | [] => .nil
  | step :: steps => .cons_filterMap (FieldStep.acts step) (FieldStep.runs steps)

theorem FragmentStep.actsInPlace : (step : FragmentStep) →
    Acts InlineFragment.selections step.inPlace step.faults step.trace step.left?
  | .look => .look
  | .attempt step => (FragmentStep.actsInPlace step).attempt
  | .directive shape => .directive (fun _ _ => rfl) shape
  | .select step => .adopt (SelectionStep.builds step) fun _ _ => rfl

theorem FragmentStep.runsInPlace : (steps : List FragmentStep) →
    Runs InlineFragment.selections (FragmentStep.allInPlace steps)
      (FragmentStep.faultsOfAll steps) (FragmentStep.traces steps)
      (steps.filterMap FragmentStep.left?)
  | [] => .nil
  | step :: steps =>
    .cons_filterMap (FragmentStep.actsInPlace step) (FragmentStep.runsInPlace steps)

/-- A step leaves a selection exactly if the child has no fault, which an attempt does not
change. -/
theorem FragmentStep.isSome_left? : (step : FragmentStep) → step.left?.isSome = step.selects
  | .look => rfl
  | .attempt step => FragmentStep.isSome_left? step
  | .directive _ => rfl
  | .select step => (SelectionStep.builds step).isSome_toOption

theorem FragmentStep.isEmpty_left? : (steps : List FragmentStep) →
    (steps.filterMap FragmentStep.left?).isEmpty = !FragmentStep.anySelects steps
  | [] => rfl
  | step :: steps => by
    have hrest := FragmentStep.isEmpty_left? steps
    rw [filterMap_cons_toList, FragmentStep.anySelects, ← FragmentStep.isSome_left? step]
    cases step.left? with
    | none => exact hrest
    | some x => rfl

theorem SelectionStep.builds : (step : SelectionStep) →
    Builds step.child step.faults step.traces
  | .field name => (Builds.pure (reports_absent name _ _)).map _
  | .fieldWith name block =>
    (Builds.build_ok (reports_absent name _ _) (FieldStep.runs block)).map _
  | .spread name => (Builds.pure (reports_absent name _ _)).map _
  | .spreadWith name shapes => (spreadWithChild_builds name shapes).map _
  | .inlineFragment _ block => (inlineFragmentChild_builds (FragmentStep.runsInPlace block)
    (FragmentStep.isEmpty_left? block)).map _
  | .add program => SelectionProgram.builds program
  | .unknown => .pure (.ok _)

theorem SelectionProgram.builds : (program : SelectionProgram) →
    Builds program.child program.faults program.traces
  | .field name block =>
    (Builds.build_ok (reports_absent name _ _) (FieldStep.runs block)).map _
  | .spread name block => (spreadChild_builds name block).map _
  | .spreadWith name shapes => (spreadWithChild_builds name shapes).map _
  | .inlineFragment _ block => (inlineFragmentChild_builds (FragmentStep.runsInPlace block)
    (FragmentStep.isEmpty_left? block)).map _
end

theorem FragmentStep.actsDefining : (step : FragmentStep) →
    Acts FragmentDefinition.selections step.defining step.faults step.trace step.left?
  | .look => .look
  | .attempt step => (FragmentStep.actsDefining step).attempt
  | .directive shape => .directive (fun _ _ => rfl) shape
  | .select step => .adopt step.builds fun _ _ => rfl

theorem FragmentStep.runsDefining (steps : List FragmentStep) :
    Runs FragmentDefinition.selections (steps.map FragmentStep.defining)
      (FragmentStep.faultsOfAll steps) (FragmentStep.traces steps)
      (steps.filterMap FragmentStep.left?) := by
  induction steps with
  | nil => exact .nil
  | cons step steps ih => exact .cons_filterMap step.actsDefining ih

/-- Declaring variables and replacing directives leaves no child. -/
theorem OperationStep.acts (step : OperationStep) :
    Acts Operation.selections step.action step.faults step.trace step.left? := by
  induction step with
  | look => exact .look
  | attempt step ih => exact ih.attempt
  | directive shape => exact .directive (fun _ _ => rfl) shape
  | directives shapes =>
    exact .ofPuts (Operation.setDirectives_puts shapes) (reports_shapes shapes) fun _ _ => rfl
  | declare name shape =>
    exact .ofPuts (Operation.addVariable_puts name shape) (reports_declaration name shape)
      fun _ _ => rfl
  | declareAll ds => exact .ofChange (failure_setVariables ds) (setVariables_selections ds)
  | select step => exact .adopt step.builds fun _ _ => rfl

theorem OperationStep.runs (steps : List OperationStep) :
    Runs Operation.selections (steps.map OperationStep.action)
      (steps.flatMap OperationStep.faults) (OperationStep.traces steps)
      (steps.filterMap OperationStep.left?) := by
  induction steps with
  | nil => exact .nil
  | cons step steps ih => exact .cons_filterMap step.acts ih

theorem reports_operation (kind : OperationKind) (name : Option String) :
    Reports (operationFaults name) (Operation.new kind name) := by
  unfold operationFaults
  by_cases hn : name = some ""
  · rw [if_pos hn, hn]
    exact .error _
  · rw [if_neg hn]
    unfold Operation.new
    split
    · exact absurd rfl hn
    · exact .ok _

theorem reports_fragment (name type : String) :
    Reports (fragmentFaults name type) (FragmentDefinition.new name type) := by
  have hname : Reports (absent name (.missingName .fragmentDefinition))
      (if name.isEmpty then .error (.missingName .fragmentDefinition) else .ok ()) :=
    reports_absent name _ _
  have htype := reports_absent type (.missingType (.ofFragment name))
    (⟨name, type, [], []⟩ : FragmentDefinition)
  have hboth := hname.bind fun _ => htype
  unfold FragmentDefinition.new
  cases h : name.isEmpty with
  | true =>
    rw [h] at hboth
    exact hboth
  | false =>
    rw [h] at hboth
    exact hboth

/-- Only an empty name keeps an operation from starting. -/
theorem operationChild_builds (kind : OperationKind) (name : Option String)
    (block : List OperationStep) :
    Builds (operationChild kind name block)
      (operationFaults name ++ block.flatMap OperationStep.faults)
      (whenNone (operationFaults name) (OperationStep.traces block)) :=
  .build_ok (reports_operation kind name) (OperationStep.runs block)

/-- A fragment definition needs its name and its type before its block is run. -/
theorem fragmentChild_builds (name type : String) (block : List FragmentStep) :
    Builds (fragmentChild name type block)
      (fragmentFaults name type ++ FragmentStep.faultsOfAll block)
      (whenNone (fragmentFaults name type) (FragmentStep.traces block)) :=
  .build_ok (reports_fragment name type) (FragmentStep.runsDefining block)

theorem DefinitionProgram.builds (program : DefinitionProgram) :
    Builds program.child program.faults program.traces := by
  cases program with
  | operation kind name block => exact (operationChild_builds kind name block).map _
  | fragment name type block => exact (fragmentChild_builds name type block).map _

/-- Each step that succeeds leaves one definition. -/
theorem DocumentStep.acts (step : DocumentStep) :
    Acts Document.definitions step.action step.faults step.trace step.left? := by
  induction step with
  | look => exact .look
  | attempt step ih => exact ih.attempt
  | operation kind name block =>
    exact .adopt (DefinitionProgram.builds (.operation kind name block)) fun _ _ => rfl
  | fragment name type block =>
    exact .adopt (DefinitionProgram.builds (.fragment name type block)) fun _ _ => rfl
  | add program => exact .adopt program.builds fun _ _ => rfl
  | unknown => exact .adopt (.pure (.ok _)) fun _ _ => rfl

theorem DocumentStep.runs (steps : List DocumentStep) :
    Runs Document.definitions (steps.map DocumentStep.action)
      (steps.flatMap DocumentStep.faults) (DocumentStep.traces steps)
      (steps.filterMap DocumentStep.left?) := by
  induction steps with
  | nil => exact .nil
  | cons step steps ih => exact .cons_filterMap step.acts ih

/-- A document can always be started and closed. -/
theorem documentChild_builds (block : List DocumentStep) :
    Builds (documentChild block) (block.flatMap DocumentStep.faults)
      (DocumentStep.traces block) := by
  have hstart : Reports [] (.ok {} : Built Document) := .ok _
  exact .build_ok hstart (DocumentStep.runs block)

/-- How a program ends can be told from its faults alone. -/
theorem Program.builds (program : Program) :
    Builds program.child program.faults program.traces := by
  match program with
  | .document block => exact (documentChild_builds block).map _
  | .definition (.operation kind name block) => exact (operationChild_builds kind name block).map _
  | .definition (.fragment name type block) => exact (fragmentChild_builds name type block).map _
  | .selection (.field name block) =>
    exact (Builds.build_ok (reports_absent name _ _) (FieldStep.runs block)).map _
  | .selection (.spread name block) => exact (spreadChild_builds name block).map _
  | .selection (.spreadWith name shapes) => exact (spreadWithChild_builds name shapes).map _
  | .selection (.inlineFragment type block) =>
    exact (inlineFragmentChild_builds (FragmentStep.runsInPlace block)
      (FragmentStep.isEmpty_left? block)).map _

/-- The children of what is closed, where the block began without any. -/
theorem Runs.children_of_build {as : List (Action σ)} {faults : List BuildError}
    {ts : List Trace} {left : List ξ} (hr : Runs view as faults ts left) {start : Built σ}
    {close : σ → Built σ} {a : σ} (h : (Child.build start as close).result = .ok a)
    (hs : ∀ s, start = .ok s → view s = []) (hc : ∀ s, close s = .ok a → a = s) :
    view a = left := by
  obtain ⟨s, hstart, hnone, hclose⟩ := Child.result_build h
  have hfaults : faults = [] := by
    rw [hr.failure] at hnone
    exact List.head?_eq_none_iff.1 hnone
  rw [hc _ hclose, hr.leaves hfaults, hs s hstart, List.nil_append]

/-- What a node holds is what its program's steps have left. -/
theorem Program.children (program : Program) (node : Node)
    (h : program.child.result = .ok node) :
    node.selections = program.selections ∧ node.definitions = program.definitions := by
  have hok {σ : Type} (a s : σ) (hs : (.ok s : Built σ) = .ok a) : a = s := (Except.ok.inj hs).symm
  match program with
  | .document block =>
    obtain ⟨d, hd, rfl⟩ := Child.result_map h
    exact ⟨rfl, (DocumentStep.runs block).children_of_build hd (by rintro _ ⟨⟩; rfl) (hok d)⟩
  | .definition (.operation kind name block) =>
    obtain ⟨o, ho, rfl⟩ := Child.result_map h
    exact ⟨(OperationStep.runs block).children_of_build ho (selections_of_operationNew kind name)
      (hok o), rfl⟩
  | .definition (.fragment name type block) =>
    obtain ⟨f, hf, rfl⟩ := Child.result_map h
    exact ⟨(FragmentStep.runsDefining block).children_of_build hf
      (selections_of_fragmentNew name type) (hok f), rfl⟩
  | .selection (.field name block) =>
    obtain ⟨f, hf, rfl⟩ := Child.result_map h
    exact ⟨(FieldStep.runs block).children_of_build hf (selections_of_fieldNew name) (hok f), rfl⟩
  | .selection (.spread name block) =>
    obtain ⟨s, -, rfl⟩ := Child.result_map h
    exact ⟨rfl, rfl⟩
  | .selection (.spreadWith name shapes) =>
    obtain ⟨s, -, rfl⟩ := Child.result_map h
    exact ⟨rfl, rfl⟩
  | .selection (.inlineFragment type block) =>
    obtain ⟨f, hf, rfl⟩ := Child.result_map h
    exact ⟨(FragmentStep.runsInPlace block).children_of_build hf (by rintro _ ⟨⟩; rfl)
      (fun s hs => close_eq s f hs), rfl⟩

/-- The program by itself for the child that the step builds. -/
def SelectionStep.program? : SelectionStep → Option SelectionProgram
  | .field name => some (.field name [])
  | .fieldWith name block => some (.field name block)
  | .spread name => some (.spread name [])
  | .spreadWith name shapes => some (.spreadWith name shapes)
  | .inlineFragment type block => some (.inlineFragment type block)
  | .add program => some program
  | .unknown => none

def DocumentStep.program? : DocumentStep → Option DefinitionProgram
  | .look | .attempt _ | .unknown => none
  | .operation kind name block => some (.operation kind name block)
  | .fragment name type block => some (.fragment name type block)
  | .add program => some program

/-- What is built `alone` is added, with its records; where it cannot be built nothing changes. -/
structure Adds [Visible σ] (alone : Child Node) (node : α → Rendered Node) (add : α → σ → σ)
    (a : Action σ) : Prop where
  added : ∀ n, alone.result = .ok n →
    ∃ x, node x = .ok n ∧ ∀ s, (a s).state = add x s ∧ (a s).failure = none
  failed : ∀ e, alone.result = .error e → ∀ s, (a s).state = s ∧ (a s).failure = some e
  record : ∀ s, (a s).record = .change alone.records (Visible.node (a s).state) (a s).failure

/-- A child added as a selection or as a definition is the child built by itself. -/
theorem Adds.adopt_map [Visible σ] {child : Child β} {f : β → α} {g : β → Node}
    {node : α → Rendered Node} (h : ∀ b, node (f b) = .ok (g b)) (add : α → σ → σ) :
    Adds (child.map g) node add (adopt add (child.map f)) := by
  unfold Child.map adopt
  cases hc : child.result with
  | error e =>
    exact ⟨fun n hn => (nomatch hn), fun e' he s => ⟨rfl, congrArg some (Except.error.inj he)⟩,
      fun _ => rfl⟩
  | ok b =>
    refine ⟨fun n hn => ⟨f b, ?_, fun s => ⟨rfl, rfl⟩⟩, fun e he => (nomatch he), fun _ => rfl⟩
    rw [h, Except.ok.inj hn]

theorem SelectionProgram.adds [Visible σ] (program : SelectionProgram)
    (add : Selection → σ → σ) :
    Adds (Program.selection program).child Selection.node add (adopt add program.child) := by
  cases program with
  | field name block =>
    exact .adopt_map (f := Selection.field) (g := Node.field) (fun _ => rfl) add
  | spread name block =>
    exact .adopt_map (f := Selection.spread) (g := Node.fragmentSpread) (fun _ => rfl) add
  | spreadWith name shapes =>
    exact .adopt_map (f := Selection.spread) (g := Node.fragmentSpread) (fun _ => rfl) add
  | inlineFragment type block =>
    exact .adopt_map (f := Selection.inlineFragment) (g := Node.inlineFragment) (fun _ => rfl) add

theorem DefinitionProgram.adds [Visible σ] (program : DefinitionProgram)
    (add : Definition → σ → σ) :
    Adds (Program.definition program).child Definition.node add (adopt add program.child) := by
  cases program with
  | operation kind name block =>
    exact .adopt_map (f := Definition.operation) (g := Node.operation) (fun _ => rfl) add
  | fragment name type block =>
    exact .adopt_map (f := Definition.fragment) (g := Node.fragmentDefinition) (fun _ => rfl) add

theorem Child.build_nil (start : Built σ) : Child.build start [] .ok = .pure start := by
  cases start <;> rfl

/-- A step that selects a child runs the program of the child, whichever way it names it. -/
theorem SelectionStep.child_of_program? {step : SelectionStep} {program : SelectionProgram}
    (h : step.program? = some program) : step.child = program.child := by
  cases step with
  | field name =>
    cases h
    exact congrArg (Child.map Selection.field) (Child.build_nil _).symm
  | spread name =>
    cases h
    exact congrArg (Child.map Selection.spread) (Child.build_nil _).symm
  | unknown => cases h
  | _ =>
    cases h
    rfl

theorem SelectionStep.adds [Visible σ] {step : SelectionStep} {program : SelectionProgram}
    (h : step.program? = some program) (add : Selection → σ → σ) :
    Adds (Program.selection program).child Selection.node add (adopt add step.child) := by
  rw [child_of_program? h]
  exact program.adds add

theorem DocumentStep.adds {step : DocumentStep} {program : DefinitionProgram}
    (h : step.program? = some program) :
    Adds (Program.definition program).child Definition.node Document.add step.action := by
  cases step with
  | look => cases h
  | attempt step => cases h
  | operation kind name block =>
    cases h
    exact DefinitionProgram.adds (.operation kind name block) Document.add
  | fragment name type block =>
    cases h
    exact DefinitionProgram.adds (.fragment name type block) Document.add
  | add program' =>
    cases h
    exact program.adds Document.add
  | unknown => cases h

/-- A program succeeds exactly if it has no faults, and otherwise fails with the first of them; what
its steps do, at every depth, is what its traces say, which end at the fault. A node that is built
has the children that the steps of the block leave. A step that builds a child, on whatever node,
does what the program of the child does by itself, followed by the addition of the child. -/
theorem program_meaning :
    (∀ program : Program,
      ((∃ node, program.child.result = .ok node) ↔ program.faults = []) ∧
      (∀ e, program.child.result = .error e ↔ program.faults.head? = some e) ∧
      Record.traces program.child.records = program.traces ∧
      ∀ node, program.child.result = .ok node →
        node.selections = program.selections ∧ node.definitions = program.definitions) ∧
    (∀ (step : SelectionStep) (program : SelectionProgram), step.program? = some program →
      let alone := (Program.selection program).child
      Adds alone Selection.node (fun x f => { f with selections := f.selections ++ [x] })
        (FieldStep.select step).action ∧
      Adds alone Selection.node (fun x f => { f with selections := f.selections ++ [x] })
        (FragmentStep.select step).inPlace ∧
      Adds alone Selection.node (fun x f => { f with selections := f.selections ++ [x] })
        (FragmentStep.select step).defining ∧
      Adds alone Selection.node (fun x o => { o with selections := o.selections ++ [x] })
        (OperationStep.select step).action) ∧
    ∀ (step : DocumentStep) (program : DefinitionProgram), step.program? = some program →
      Adds (Program.definition program).child Definition.node
        (fun x d => { d with definitions := d.definitions ++ [x] }) step.action := by
  refine ⟨fun program => ?_, fun step program h => ?_, fun step program h => DocumentStep.adds h⟩
  · have hbuilds := program.builds
    exact ⟨hbuilds.result.ok_iff, hbuilds.result.error_iff, hbuilds.trace, program.children⟩
  · exact ⟨SelectionStep.adds h _, SelectionStep.adds h _, SelectionStep.adds h _,
      SelectionStep.adds h _⟩

/-- The field without a name is swallowed, and the fragment around it is refused as empty. -/
def swallowing : Program :=
  .definition (.operation .query none
    [.select (.inlineFragment (some "T") [.attempt (.select (.field "")), .look]),
      .select (.field "a")])

/-- The last step is not run. -/
theorem program_meaning_of_swallowing :
    swallowing.child.result = .error (.missingSelection (some "T")) ∧
      Record.traces swallowing.child.records =
        [.change [.change [] (some (.missingName .field)), .look]
          (some (.missingSelection (some "T")))] ∧
      SelectionStep.program? (.field "a") = some (.field "a" []) ∧
      ∀ o : Operation, ((OperationStep.select (.field "a")).action o).failure = none := by
  have hmeaning := program_meaning.1 swallowing
  have halone :
      (Program.selection (.field "a" [])).child.result = .ok (.field { name := "a" }) := rfl
  obtain ⟨_, -, hadds⟩ := (program_meaning.2.1 (.field "a") _ rfl).2.2.2.added _ halone
  exact ⟨(hmeaning.2.1 _).2 rfl, hmeaning.2.2.1, rfl, fun o => (hadds o).2⟩

end Build
end QueryDocument
