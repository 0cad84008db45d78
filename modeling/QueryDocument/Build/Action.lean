import QueryDocument.Build.Node

/-!
Actions on a node under construction. An action ends in a state of the node whether it fails or not,
and leaves a record of what it did. A block of actions ends at the first failure; an attempt turns
the failure of one action into success and keeps its state and its record.
-/
namespace QueryDocument
namespace Build

/-- What one action did: a look at the node, or a change after which the node was `after`, with the
records of the block that ran inside it. -/
inductive Record where
  | look (node : Node)
  | change (inside : List Record) (after : Node) (failure : Option BuildError)

structure Outcome (σ : Type) where
  state : σ
  failure : Option BuildError
  record : Record

abbrev Action (σ : Type) := σ → Outcome σ

/-- What a block of actions led to. -/
structure Run (σ : Type) where
  state : σ
  failure : Option BuildError
  records : List Record

/-- A node built by itself, with the records of the block it was built in. -/
structure Child (α : Type) where
  result : Built α
  records : List Record

/-- A type of nodes that can be looked at while they are built. -/
class Visible (σ : Type) where
  node : σ → Node

instance : Visible Document := ⟨.document⟩
instance : Visible Field := ⟨.field⟩
instance : Visible FragmentDefinition := ⟨.fragmentDefinition⟩
instance : Visible FragmentSpread := ⟨.fragmentSpread⟩
instance : Visible InlineFragment := ⟨.inlineFragment⟩
instance : Visible Operation := ⟨.operation⟩

namespace Action

variable {σ α : Type}

def look [Visible σ] : Action σ := fun s => ⟨s, none, .look (Visible.node s)⟩

def attempt (a : Action σ) : Action σ := fun s => { a s with failure := none }

/-- A change as an action, with the records of the block that ran to prepare it. -/
def after [Visible σ] (inside : List Record) (c : Change σ Unit) : Action σ := fun s =>
  ⟨c.left s, c.failure s, .change inside (Visible.node (c.left s)) (c.failure s)⟩

def ofChange [Visible σ] (c : Change σ Unit) : Action σ := after [] c

/-- Adds a child that was built by itself. -/
def adopt [Visible σ] (add : α → σ → σ) (child : Child α) : Action σ :=
  after child.records do
    let a ← child.result
    modify (add a)

def runAll : List (Action σ) → σ → Run σ
  | [], s => ⟨s, none, []⟩
  | a :: as, s =>
    let o := a s
    match o.failure with
    | some e => ⟨o.state, some e, [o.record]⟩
    | none =>
      let r := runAll as o.state
      { r with records := o.record :: r.records }

@[simp] theorem runAll_nil (s : σ) : runAll [] s = ⟨s, none, []⟩ := rfl

/-- The actions behind one that fails are not run, and what it has left stays. -/
theorem runAll_cons_of_failure {a : Action σ} {s : σ} {e : BuildError}
    (h : (a s).failure = some e) (as : List (Action σ)) :
    runAll (a :: as) s = ⟨(a s).state, some e, [(a s).record]⟩ := by
  simp [runAll, h]

/-- The rest of the block runs on what the first action has left. -/
theorem runAll_cons_of_success {a : Action σ} {s : σ} (h : (a s).failure = none)
    (as : List (Action σ)) :
    runAll (a :: as) s =
      let r := runAll as (a s).state
      { r with records := (a s).record :: r.records } := by
  simp [runAll, h]

@[simp] theorem look_state [Visible σ] (s : σ) : (look s).state = s := rfl
@[simp] theorem look_failure [Visible σ] (s : σ) : (look s).failure = none := rfl
/-- An attempt leaves the node as its action does, even if this fails. -/
@[simp] theorem attempt_state (a : Action σ) (s : σ) : (a.attempt s).state = (a s).state := rfl
@[simp] theorem attempt_failure (a : Action σ) (s : σ) : (a.attempt s).failure = none := rfl
/-- A swallowed failure is still on record. -/
@[simp] theorem attempt_record (a : Action σ) (s : σ) : (a.attempt s).record = (a s).record := rfl

end Action

namespace Child

variable {σ α β : Type}

def pure (result : Built α) : Child α := ⟨result, []⟩

def map (f : α → β) (c : Child α) : Child β := ⟨f <$> c.result, c.records⟩

/-- Runs a block on a new node, if there is one, and closes it. -/
def build (start : Built σ) (block : List (Action σ)) (close : σ → Built α) : Child α :=
  match start with
  | .error e => ⟨.error e, []⟩
  | .ok s =>
    let r := Action.runAll block s
    match r.failure with
    | some e => ⟨.error e, r.records⟩
    | none => ⟨close r.state, r.records⟩

end Child
end Build
end QueryDocument
