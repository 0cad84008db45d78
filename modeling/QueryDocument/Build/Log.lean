import QueryDocument.Build.Action

/-!
Builder programs: the steps that may stand in the block of each node, and what they mean as actions
on it. A program for a child node has a meaning of its own, which does not depend on the node that
the child is added to.

A node also lends out its list of selections as it is, and whoever holds it may put any other list
in its place, an empty one too. That is not a step: it checks nothing and cannot fail, so that what
is shown of programs holds of nodes whose selections came there by their steps.

The records of a build make one list, in the order in which the steps ended. A step is found in it
by its path, the places of the steps that hold it and then its own place in its block.
-/
namespace QueryDocument
namespace Build

inductive SpreadStep where
  | look
  | attempt (step : SpreadStep)
  | directive (shape : DirectiveShape)

mutual

inductive FieldStep where
  | look
  | attempt (step : FieldStep)
  | directive (shape : DirectiveShape)
  | label (text : String)
  | argument (name : String) (value : Value)
  | arguments (args : List (String × Value))
  | select (step : SelectionStep)

/-- A step in the block of a fragment, in place or not. -/
inductive FragmentStep where
  | look
  | attempt (step : FragmentStep)
  | directive (shape : DirectiveShape)
  | select (step : SelectionStep)

/-- A step that appends one selection. -/
inductive SelectionStep where
  | field (name : String)
  | fieldWith (name : String) (block : List FieldStep)
  | spread (name : String)
  | spreadWith (name : String) (directives : List DirectiveShape)
  | inlineFragment (type : Option String) (block : List FragmentStep)
  | add (program : SelectionProgram)
  | unknown

inductive SelectionProgram where
  | field (name : String) (block : List FieldStep)
  | spread (name : String) (block : List SpreadStep)
  | spreadWith (name : String) (directives : List DirectiveShape)
  | inlineFragment (type : Option String) (block : List FragmentStep)

end

inductive OperationStep where
  | look
  | attempt (step : OperationStep)
  | directive (shape : DirectiveShape)
  | directives (shapes : List DirectiveShape)
  | declare (name : String) (shape : VariableShape)
  | declareAll (ds : List (String × VariableShape))
  | select (step : SelectionStep)

inductive DefinitionProgram where
  | operation (kind : OperationKind) (name : Option String) (block : List OperationStep)
  | fragment (name type : String) (block : List FragmentStep)

inductive DocumentStep where
  | look
  | attempt (step : DocumentStep)
  | operation (kind : OperationKind) (name : Option String) (block : List OperationStep)
  | fragment (name type : String) (block : List FragmentStep)
  | add (program : DefinitionProgram)
  | unknown

inductive Program where
  | document (block : List DocumentStep)
  | definition (program : DefinitionProgram)
  | selection (program : SelectionProgram)

def SpreadStep.action : SpreadStep → Action FragmentSpread
  | .look => .look
  | .attempt step => step.action.attempt
  | .directive shape => .ofChange (addDirective shape)

def fieldChild (name : String) (block : List (Action Field)) : Child Field :=
  .build (Field.new name) block .ok

def inlineFragmentChild (type : Option String) (block : List (Action InlineFragment)) :
    Child InlineFragment :=
  .build (.ok (InlineFragment.new type)) block InlineFragment.close

def spreadChild (name : String) (block : List SpreadStep) : Child FragmentSpread :=
  .build (FragmentSpread.new name) (block.map SpreadStep.action) .ok

def spreadWithChild (name : String) (ds : List DirectiveShape) : Child FragmentSpread :=
  .pure (FragmentSpread.withDirectives name ds)

mutual

def FieldStep.action : FieldStep → Action Field
  | .look => .look
  | .attempt step => step.action.attempt
  | .directive shape => .ofChange (addDirective shape)
  | .label text => .ofChange (Field.setLabel text)
  | .argument name value => .ofChange (Field.addArgument name value)
  | .arguments args => .ofChange (Field.setArguments args)
  | .select step => .adopt Selecting.select step.child

def FieldStep.actions : List FieldStep → List (Action Field)
  | [] => []
  | step :: steps => step.action :: FieldStep.actions steps

/-- The step in the block of a fragment that is written in place. -/
def FragmentStep.inPlace : FragmentStep → Action InlineFragment
  | .look => .look
  | .attempt step => step.inPlace.attempt
  | .directive shape => .ofChange (addDirective shape)
  | .select step => .adopt Selecting.select step.child

def FragmentStep.allInPlace : List FragmentStep → List (Action InlineFragment)
  | [] => []
  | step :: steps => step.inPlace :: FragmentStep.allInPlace steps

def SelectionStep.child : SelectionStep → Child Selection
  | .field name => (Child.pure (Field.new name)).map .field
  | .fieldWith name block => (fieldChild name (FieldStep.actions block)).map .field
  | .spread name => (Child.pure (FragmentSpread.new name)).map .spread
  | .spreadWith name ds => (spreadWithChild name ds).map .spread
  | .inlineFragment type block =>
    (inlineFragmentChild type (FragmentStep.allInPlace block)).map .inlineFragment
  | .add program => program.child
  | .unknown => .pure (.ok .unknown)

def SelectionProgram.child : SelectionProgram → Child Selection
  | .field name block => (fieldChild name (FieldStep.actions block)).map .field
  | .spread name block => (spreadChild name block).map .spread
  | .spreadWith name ds => (spreadWithChild name ds).map .spread
  | .inlineFragment type block =>
    (inlineFragmentChild type (FragmentStep.allInPlace block)).map .inlineFragment

end

theorem FieldStep.actions_eq_map (steps : List FieldStep) :
    FieldStep.actions steps = steps.map FieldStep.action := by
  induction steps with
  | nil => rfl
  | cons step steps ih => simp [FieldStep.actions, ih]

theorem FragmentStep.allInPlace_eq_map (steps : List FragmentStep) :
    FragmentStep.allInPlace steps = steps.map FragmentStep.inPlace := by
  induction steps with
  | nil => rfl
  | cons step steps ih => simp [FragmentStep.allInPlace, ih]

def OperationStep.action : OperationStep → Action Operation
  | .look => .look
  | .attempt step => step.action.attempt
  | .directive shape => .ofChange (addDirective shape)
  | .directives shapes => .ofChange (Operation.setDirectives shapes)
  | .declare name shape => .ofChange (Operation.addVariable name shape)
  | .declareAll ds => .ofChange (Operation.setVariables ds)
  | .select step => .adopt Selecting.select step.child

def operationChild (kind : OperationKind) (name : Option String) (block : List OperationStep) :
    Child Operation :=
  .build (Operation.new kind name) (block.map OperationStep.action) .ok

/-- The step in the block of a fragment definition. -/
def FragmentStep.defining : FragmentStep → Action FragmentDefinition
  | .look => .look
  | .attempt step => step.defining.attempt
  | .directive shape => .ofChange (addDirective shape)
  | .select step => .adopt Selecting.select step.child

def fragmentChild (name type : String) (block : List FragmentStep) : Child FragmentDefinition :=
  .build (FragmentDefinition.new name type) (block.map FragmentStep.defining) .ok

def DefinitionProgram.child : DefinitionProgram → Child Definition
  | .operation kind name block => (operationChild kind name block).map .operation
  | .fragment name type block => (fragmentChild name type block).map .fragment

def DocumentStep.action : DocumentStep → Action Document
  | .look => .look
  | .attempt step => step.action.attempt
  | .operation kind name block =>
    .adopt Document.add ((operationChild kind name block).map .operation)
  | .fragment name type block => .adopt Document.add ((fragmentChild name type block).map .fragment)
  | .add program => .adopt Document.add program.child
  | .unknown => .adopt Document.add (.pure (.ok .unknown))

def documentChild (block : List DocumentStep) : Child Document :=
  .build (.ok {}) (block.map DocumentStep.action) .ok

/-- The node that a program builds, of whatever kind. -/
def Program.child : Program → Child Node
  | .document block => (documentChild block).map .document
  | .definition (.operation kind name block) => (operationChild kind name block).map .operation
  | .definition (.fragment name type block) =>
    (fragmentChild name type block).map .fragmentDefinition
  | .selection (.field name block) => (fieldChild name (FieldStep.actions block)).map .field
  | .selection (.spread name block) => (spreadChild name block).map .fragmentSpread
  | .selection (.spreadWith name ds) => (spreadWithChild name ds).map .fragmentSpread
  | .selection (.inlineFragment type block) =>
    (inlineFragmentChild type (FragmentStep.allInPlace block)).map .inlineFragment

inductive Event where
  | look (node : Node)
  | change (after : Node) (failure : Option BuildError)

structure Entry where
  path : List Nat
  event : Event

def Entry.pathText (e : Entry) : String := ".".intercalate (e.path.map toString)

mutual
def Record.entries (path : List Nat) : Record → List Entry
  | .look node => [⟨path, .look node⟩]
  | .change inside after failure =>
    Record.entriesOfAll path 0 inside ++ [⟨path, .change after failure⟩]

/-- The records of a block from its place `i` on. -/
def Record.entriesOfAll (path : List Nat) (i : Nat) : List Record → List Entry
  | [] => []
  | r :: rs => r.entries (path ++ [i]) ++ Record.entriesOfAll path (i + 1) rs
end

def log (records : List Record) : List Entry := Record.entriesOfAll [] 0 records

end Build
end QueryDocument
