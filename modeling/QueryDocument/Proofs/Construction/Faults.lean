import QueryDocument.Proofs.Construction.Origin

/-!
What a builder program means, read off the program. `faults` lists the failures that a run would
meet if none of them stopped it, in the order of a walk that goes into each step's own block before
it goes on: a node's own check, its block, and for an inline fragment the check at the end. What is
attempted has no faults. `trace` tells what is done up to the first fault of each block, and of how
each step ends.
-/
namespace QueryDocument
namespace Build

/-- What a step did, but for the states of the node. -/
inductive Trace where
  | look
  | change (inside : List Trace) (failure : Option BuildError)

mutual
def Record.trace : Record → Trace
  | .look _ => .look
  | .change inside _ failure => .change (Record.traces inside) failure

def Record.traces : List Record → List Trace
  | [] => []
  | r :: rs => r.trace :: Record.traces rs
end

/-- The faults of a check that stands by itself. -/
def failures {α : Type} : Built α → List BuildError
  | .ok _ => []
  | .error e => [e]

/-- A text that must not be empty. -/
def absent (text : String) (e : BuildError) : List BuildError := if text = "" then [e] else []

def shapeFaults (shapes : List DirectiveShape) : List BuildError :=
  shapes.flatMap fun shape => failures (Directive.ofShape shape)

/-- A missing type is told with the name of the variable. -/
def variableFaults (name : String) (shape : VariableShape) : List BuildError :=
  if bareName name = "" then [.missingName .variableName]
  else failures ((VariableDefinition.ofShape shape).mapError (Operation.typeFault (bareName name)))

def spreadFaults (name : String) (shapes : List DirectiveShape) : List BuildError :=
  absent name (.missingName .fragmentSpread) ++ shapeFaults shapes

/-- The check at the end of an inline fragment, if no selection is left by then. -/
def emptyFaults (type : Option String) (selects : Bool) : List BuildError :=
  if selects then [] else [.missingSelection (type.filter fun t => !t.isEmpty)]

def SpreadStep.faults : SpreadStep → List BuildError
  | .look | .attempt _ => []
  | .directive shape => failures (Directive.ofShape shape)

mutual
def FieldStep.faults : FieldStep → List BuildError
  | .look | .attempt _ => []
  | .directive shape => failures (Directive.ofShape shape)
  | .label text => absent text (.missingName .fieldAlias)
  | .argument name _ => absent name (.missingName .argument)
  | .arguments args => failures (checkArguments args)
  | .select step => step.faults

def FieldStep.faultsOfAll : List FieldStep → List BuildError
  | [] => []
  | step :: steps => step.faults ++ FieldStep.faultsOfAll steps

def FragmentStep.faults : FragmentStep → List BuildError
  | .look | .attempt _ => []
  | .directive shape => failures (Directive.ofShape shape)
  | .select step => step.faults

def FragmentStep.faultsOfAll : List FragmentStep → List BuildError
  | [] => []
  | step :: steps => step.faults ++ FragmentStep.faultsOfAll steps

/-- Whether the step leaves a selection, attempted or not. -/
def FragmentStep.selects : FragmentStep → Bool
  | .look | .directive _ => false
  | .attempt step => step.selects
  | .select step => step.faults.isEmpty

def FragmentStep.anySelects : List FragmentStep → Bool
  | [] => false
  | step :: steps => step.selects || FragmentStep.anySelects steps

def SelectionStep.faults : SelectionStep → List BuildError
  | .field name => absent name (.missingName .field)
  | .fieldWith name block => absent name (.missingName .field) ++ FieldStep.faultsOfAll block
  | .spread name => absent name (.missingName .fragmentSpread)
  | .spreadWith name shapes => spreadFaults name shapes
  | .inlineFragment type block =>
    FragmentStep.faultsOfAll block ++ emptyFaults type (FragmentStep.anySelects block)
  | .add program => program.faults
  | .unknown => []

def SelectionProgram.faults : SelectionProgram → List BuildError
  | .field name block => absent name (.missingName .field) ++ FieldStep.faultsOfAll block
  | .spread name block =>
    absent name (.missingName .fragmentSpread) ++ block.flatMap SpreadStep.faults
  | .spreadWith name shapes => spreadFaults name shapes
  | .inlineFragment type block =>
    FragmentStep.faultsOfAll block ++ emptyFaults type (FragmentStep.anySelects block)
end

def OperationStep.faults : OperationStep → List BuildError
  | .look | .attempt _ => []
  | .directive shape => failures (Directive.ofShape shape)
  | .directives shapes => shapeFaults shapes
  | .declare name shape => variableFaults name shape
  | .declareAll ds => ds.flatMap fun d => variableFaults d.1 d.2
  | .select step => step.faults

def operationFaults (name : Option String) : List BuildError :=
  if name = some "" then [.missingName .operation] else []

def fragmentFaults (name type : String) : List BuildError :=
  absent name (.missingName .fragmentDefinition) ++ absent type (.missingType (.ofFragment name))

def DefinitionProgram.faults : DefinitionProgram → List BuildError
  | .operation _ name block => operationFaults name ++ block.flatMap OperationStep.faults
  | .fragment name type block => fragmentFaults name type ++ FragmentStep.faultsOfAll block

def DocumentStep.faults : DocumentStep → List BuildError
  | .look | .attempt _ | .unknown => []
  | .operation kind name block => (DefinitionProgram.operation kind name block).faults
  | .fragment name type block => (DefinitionProgram.fragment name type block).faults
  | .add program => program.faults

def Program.faults : Program → List BuildError
  | .document block => block.flatMap DocumentStep.faults
  | .definition program => program.faults
  | .selection program => program.faults

/-- What follows is done only where nothing has failed. -/
def whenNone (faults : List BuildError) (ts : List Trace) : List Trace :=
  if faults.isEmpty then ts else []

def SpreadStep.trace : SpreadStep → Trace
  | .look => .look
  | .attempt step => step.trace
  | step => .change [] step.faults.head?

def SpreadStep.traces : List SpreadStep → List Trace
  | [] => []
  | step :: steps => step.trace :: whenNone step.faults (SpreadStep.traces steps)

mutual
def FieldStep.trace : FieldStep → Trace
  | .look => .look
  | .attempt step => step.trace
  | .select step => .change step.traces step.faults.head?
  | step => .change [] step.faults.head?

def FieldStep.traces : List FieldStep → List Trace
  | [] => []
  | step :: steps => step.trace :: whenNone step.faults (FieldStep.traces steps)

def FragmentStep.trace : FragmentStep → Trace
  | .look => .look
  | .attempt step => step.trace
  | .select step => .change step.traces step.faults.head?
  | step => .change [] step.faults.head?

def FragmentStep.traces : List FragmentStep → List Trace
  | [] => []
  | step :: steps => step.trace :: whenNone step.faults (FragmentStep.traces steps)

/-- What is done in the step's own block. -/
def SelectionStep.traces : SelectionStep → List Trace
  | .field _ | .spread _ | .spreadWith _ _ | .unknown => []
  | .fieldWith name block => whenNone (absent name (.missingName .field)) (FieldStep.traces block)
  | .inlineFragment _ block => FragmentStep.traces block
  | .add program => program.traces

def SelectionProgram.traces : SelectionProgram → List Trace
  | .field name block => whenNone (absent name (.missingName .field)) (FieldStep.traces block)
  | .spread name block =>
    whenNone (absent name (.missingName .fragmentSpread)) (SpreadStep.traces block)
  | .spreadWith _ _ => []
  | .inlineFragment _ block => FragmentStep.traces block
end

def OperationStep.trace : OperationStep → Trace
  | .look => .look
  | .attempt step => step.trace
  | .select step => .change step.traces step.faults.head?
  | step => .change [] step.faults.head?

def OperationStep.traces : List OperationStep → List Trace
  | [] => []
  | step :: steps => step.trace :: whenNone step.faults (OperationStep.traces steps)

def DefinitionProgram.traces : DefinitionProgram → List Trace
  | .operation _ name block => whenNone (operationFaults name) (OperationStep.traces block)
  | .fragment name type block => whenNone (fragmentFaults name type) (FragmentStep.traces block)

def DocumentStep.trace : DocumentStep → Trace
  | .look => .look
  | .attempt step => step.trace
  | .operation kind name block =>
    .change (DefinitionProgram.operation kind name block).traces
      (DefinitionProgram.operation kind name block).faults.head?
  | .fragment name type block =>
    .change (DefinitionProgram.fragment name type block).traces
      (DefinitionProgram.fragment name type block).faults.head?
  | .add program => .change program.traces program.faults.head?
  | .unknown => .change [] none

def DocumentStep.traces : List DocumentStep → List Trace
  | [] => []
  | step :: steps => step.trace :: whenNone step.faults (DocumentStep.traces steps)

def Program.traces : Program → List Trace
  | .document block => DocumentStep.traces block
  | .definition program => program.traces
  | .selection program => program.traces

/-- The selection that a step leaves, if its child can be built. -/
def SelectionStep.left? (step : SelectionStep) : Option Selection := step.child.result.toOption

def FieldStep.left? (step : FieldStep) : Option Selection :=
  step.selecting?.bind SelectionStep.left?

def FragmentStep.left? (step : FragmentStep) : Option Selection :=
  step.selecting?.bind SelectionStep.left?

def OperationStep.left? (step : OperationStep) : Option Selection :=
  step.selecting?.bind SelectionStep.left?

def DocumentStep.left? : DocumentStep → Option Definition
  | .look => none
  | .attempt step => step.left?
  | .operation kind name block =>
    (DefinitionProgram.operation kind name block).child.result.toOption
  | .fragment name type block =>
    (DefinitionProgram.fragment name type block).child.result.toOption
  | .add program => program.child.result.toOption
  | .unknown => some .unknown

/-- The children that the steps of a program's block leave, each built by itself, in order. -/
def Program.selections : Program → List Selection
  | .document _ => []
  | .definition (.operation _ _ block) => block.filterMap OperationStep.left?
  | .definition (.fragment _ _ block) => block.filterMap FragmentStep.left?
  | .selection (.field _ block) => block.filterMap FieldStep.left?
  | .selection (.spread _ _) | .selection (.spreadWith _ _) => []
  | .selection (.inlineFragment _ block) => block.filterMap FragmentStep.left?

def Program.definitions : Program → List Definition
  | .document block => block.filterMap DocumentStep.left?
  | .definition _ | .selection _ => []

end Build

namespace Node

def selections : Node → List Selection
  | .document _ | .fragmentSpread _ => []
  | .field f => f.selections
  | .fragmentDefinition f => f.selections
  | .inlineFragment f => f.selections
  | .operation o => o.selections

def definitions : Node → List Definition
  | .document d => d.definitions
  | .field _ | .fragmentDefinition _ | .fragmentSpread _ | .inlineFragment _ | .operation _ => []

end Node
end QueryDocument
