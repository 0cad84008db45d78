import QueryDocument.Proofs.Construction.Composed

/-!
Steps that write to different attributes of a node commute. A step rewrites one attribute by a
function that looks at nothing else, and how it ends depends on no node at all. What a block leaves
of an attribute is thus what the steps that write there leave of it, wherever the others stand.
-/
namespace QueryDocument

/-- What the steps of a block can write to. -/
inductive Attribute where
  | label
  | arguments
  | directives
  | declared
  | selections
  | definitions
  deriving DecidableEq

def Attribute.Content : Attribute → Type
  | .label => Option String
  | .arguments => List (String × Value)
  | .directives => List Directive
  | .declared => List (String × VariableDefinition)
  | .selections => List Selection
  | .definitions => List Definition

namespace Node

/-- `none` if nodes of this kind have no such attribute. -/
def content? : (a : Attribute) → Node → Option a.Content
  | .label, .field f => some f.label
  | .arguments, .field f => some f.arguments
  | .directives, .field f => some f.directives
  | .directives, .fragmentDefinition f => some f.directives
  | .directives, .fragmentSpread s => some s.directives
  | .directives, .inlineFragment f => some f.directives
  | .directives, .operation o => some o.directives
  | .declared, .operation o => some o.declared
  | .selections, .field f => some f.selections
  | .selections, .fragmentDefinition f => some f.selections
  | .selections, .inlineFragment f => some f.selections
  | .selections, .operation o => some o.selections
  | .definitions, .document d => some d.definitions
  | _, _ => none

/-- A node without the attribute stays as it is. -/
def rewrite : (a : Attribute) → (a.Content → a.Content) → Node → Node
  | .label, w, .field f => .field { f with label := w f.label }
  | .arguments, w, .field f => .field { f with arguments := w f.arguments }
  | .directives, w, .field f => .field { f with directives := w f.directives }
  | .directives, w, .fragmentDefinition f =>
    .fragmentDefinition { f with directives := w f.directives }
  | .directives, w, .fragmentSpread s => .fragmentSpread { s with directives := w s.directives }
  | .directives, w, .inlineFragment f => .inlineFragment { f with directives := w f.directives }
  | .directives, w, .operation o => .operation { o with directives := w o.directives }
  | .declared, w, .operation o => .operation { o with declared := w o.declared }
  | .selections, w, .field f => .field { f with selections := w f.selections }
  | .selections, w, .fragmentDefinition f =>
    .fragmentDefinition { f with selections := w f.selections }
  | .selections, w, .inlineFragment f => .inlineFragment { f with selections := w f.selections }
  | .selections, w, .operation o => .operation { o with selections := w o.selections }
  | .definitions, w, .document d => .document { d with definitions := w d.definitions }
  | _, _, n => n

/-- What no step writes to. -/
def bare : Node → Node
  | .document _ => .document {}
  | .field f => .field { name := f.name }
  | .fragmentDefinition f => .fragmentDefinition ⟨f.name, f.typeCondition, [], []⟩
  | .fragmentSpread s => .fragmentSpread { name := s.name }
  | .inlineFragment f => .inlineFragment { typeCondition := f.typeCondition }
  | .operation o => .operation { kind := o.kind, name := o.name }

theorem rewrite_id (a : Attribute) (n : Node) : n.rewrite a id = n := by
  obtain _ | ⟨_, _, _, _, _⟩ | _ | _ | ⟨_, _, _⟩ | _ := n <;> cases a <;> rfl

theorem rewrite_rewrite (a : Attribute) (v w : a.Content → a.Content) (n : Node) :
    (n.rewrite a v).rewrite a w = n.rewrite a (w ∘ v) := by
  cases a <;> cases n <;> rfl

theorem content?_rewrite_self (a : Attribute) (w : a.Content → a.Content) (n : Node) :
    (n.rewrite a w).content? a = (n.content? a).map w := by
  cases a <;> cases n <;> rfl

theorem content?_rewrite_of_ne {a b : Attribute} (h : b ≠ a) (w : a.Content → a.Content)
    (n : Node) : (n.rewrite a w).content? b = n.content? b := by
  cases a <;> cases b <;> first | exact absurd rfl h | (cases n <;> rfl)

/-- The kind of a node, its name and its type condition are no attribute. -/
theorem bare_rewrite (a : Attribute) (w : a.Content → a.Content) (n : Node) :
    (n.rewrite a w).bare = n.bare := by
  cases a <;> cases n <;> rfl

/-- A node is what no step writes to and its attributes. -/
theorem ext_content {n m : Node} (hb : n.bare = m.bare)
    (h : ∀ a, n.content? a = m.content? a) : n = m := by
  have hlabel := h .label
  have harguments := h .arguments
  have hdirectives := h .directives
  have hdeclared := h .declared
  have hselections := h .selections
  have hdefinitions := h .definitions
  clear h
  obtain ⟨⟨_⟩⟩ | ⟨_, _, _, _, _⟩ | ⟨_, _, _, _⟩ | ⟨_, _⟩ | ⟨_, _, _⟩ | ⟨_, _, _, _, _⟩ := n <;>
    obtain ⟨⟨_⟩⟩ | ⟨_, _, _, _, _⟩ | ⟨_, _, _, _⟩ | ⟨_, _⟩ | ⟨_, _, _⟩ | ⟨_, _, _, _, _⟩ := m <;>
    cases hb
  all_goals
    cases hlabel
    cases harguments
    cases hdirectives
    cases hdeclared
    cases hselections
    cases hdefinitions
    rfl

end Node

namespace Build

/-- The attribute that a step writes to, if it writes at all. -/
def SpreadStep.attribute? : SpreadStep → Option Attribute
  | .look => none
  | .attempt step => step.attribute?
  | .directive _ => some .directives

def FieldStep.attribute? : FieldStep → Option Attribute
  | .look => none
  | .attempt step => step.attribute?
  | .directive _ => some .directives
  | .label _ => some .label
  | .argument _ _ | .arguments _ => some .arguments
  | .select _ => some .selections

def FragmentStep.attribute? : FragmentStep → Option Attribute
  | .look => none
  | .attempt step => step.attribute?
  | .directive _ => some .directives
  | .select _ => some .selections

def OperationStep.attribute? : OperationStep → Option Attribute
  | .look => none
  | .attempt step => step.attribute?
  | .directive _ | .directives _ => some .directives
  | .declare _ _ | .declareAll _ => some .declared
  | .select _ => some .selections

def DocumentStep.attribute? : DocumentStep → Option Attribute
  | .look => none
  | .attempt step => step.attribute?
  | .operation _ _ _ | .fragment _ _ _ | .add _ | .unknown => some .definitions

variable {σ τ α β : Type}

/-- One attribute is rewritten, by a function that looks at nothing but this attribute. -/
def Writes [Visible σ] (a : Attribute) (g : σ → σ) : Prop :=
  ∃ w : a.Content → a.Content, ∀ s, Visible.node (g s) = (Visible.node s).rewrite a w

namespace Writes

variable [Visible σ] {a : Attribute} {f g : σ → σ}

theorem nothing (a : Attribute) : Writes a fun s : σ => s :=
  ⟨id, fun _ => (Node.rewrite_id a _).symm⟩

theorem andThen (hf : Writes a f) (hg : Writes a g) : Writes a fun s => g (f s) := by
  obtain ⟨v, hv⟩ := hf
  obtain ⟨w, hw⟩ := hg
  exact ⟨w ∘ v, fun s => by rw [hw, hv, Node.rewrite_rewrite]⟩

/-- What is written there depends on what stood there, and on nothing else of the node. -/
theorem content?_self (h : Writes a g) {s t : σ}
    (hst : (Visible.node s).content? a = (Visible.node t).content? a) :
    (Visible.node (g s)).content? a = (Visible.node (g t)).content? a := by
  obtain ⟨w, hw⟩ := h
  rw [hw, hw, Node.content?_rewrite_self, Node.content?_rewrite_self, hst]

/-- What is put into the node, or why nothing is, was found out without the node. -/
theorem ofPuts {c : Change σ Unit} {x : Built β} {put : β → σ → σ} (hc : c.Puts x put)
    (hput : ∀ y, Writes a (put y)) : Writes a c.left := by
  cases x with
  | error e =>
    have hstay : c.left = fun s => s := funext (hc.left_of_error rfl)
    rw [hstay]
    exact nothing a
  | ok y =>
    have hdone : c.left = put y := funext (hc.left_of_ok rfl)
    rw [hdone]
    exact hput y

/-- Adding a child writes where it is added, whatever its block does to the child. -/
theorem adopt {add : α → σ → σ} (hadd : ∀ x, Writes a (add x)) (child : Child α) :
    Writes a fun s => (Action.adopt add child s).state :=
  ofPuts (Change.puts_bind child.result add) hadd

theorem directive [Annotated σ]
    (h : ∀ d (s : σ), Visible.node (Annotated.annotate d s) =
      (Visible.node s).rewrite .directives fun ds : List Directive => ds ++ [d])
    (shape : DirectiveShape) :
    Writes .directives fun s : σ => (Action.ofChange (addDirective shape) s).state :=
  ofPuts (addDirective_puts shape) fun d => ⟨_, h d⟩

theorem select [Selecting σ]
    (h : ∀ x (s : σ), Visible.node (Selecting.select x s) =
      (Visible.node s).rewrite .selections fun xs : List Selection => xs ++ [x])
    (child : Child Selection) :
    Writes .selections fun s : σ => (Action.adopt Selecting.select child s).state :=
  adopt (fun x => ⟨_, h x⟩) child

end Writes

/-- What a step leaves is the node as it was but for the attribute. -/
def Touches [Visible σ] : Option Attribute → (σ → σ) → Prop
  | none, g => ∀ s, g s = s
  | some a, g => Writes a g

namespace Touches

variable [Visible σ] {a? : Option Attribute} {g : σ → σ}

theorem content?_of_ne (h : Touches a? g) {b : Attribute} (hb : a? ≠ some b) (s : σ) :
    (Visible.node (g s)).content? b = (Visible.node s).content? b := by
  cases a? with
  | none => exact congrArg (fun s => (Visible.node s).content? b) (h s)
  | some a =>
    obtain ⟨w, hw⟩ := h
    rw [hw, Node.content?_rewrite_of_ne fun hba => hb (congrArg some hba.symm)]

/-- No step changes the name of a node, or its type condition. -/
theorem bare (h : Touches a? g) (s : σ) : (Visible.node (g s)).bare = (Visible.node s).bare := by
  cases a? with
  | none => exact congrArg (fun s => (Visible.node s).bare) (h s)
  | some a =>
    obtain ⟨w, hw⟩ := h
    rw [hw, Node.bare_rewrite]

end Touches

theorem SpreadStep.touches (step : SpreadStep) :
    Touches step.attribute? fun s => (step.action s).state := by
  induction step with
  | look => exact fun _ => rfl
  | attempt step ih => exact ih
  | directive shape => exact .directive (fun _ _ => rfl) shape

/-- A step of a field writes to one attribute at most, and an attempt to the one that the step
attempted writes to. -/
theorem FieldStep.touches (step : FieldStep) :
    Touches step.attribute? fun f => (step.action f).state := by
  fun_induction FieldStep.attribute? step with
  | case1 => exact fun _ => rfl
  | case2 step ih => exact ih
  | case3 shape => exact .directive (fun _ _ => rfl) shape
  | case4 text =>
    exact Writes.ofPuts (Field.setLabel_puts text) fun _ => ⟨fun _ => some text, fun _ => rfl⟩
  | case5 name v =>
    exact Writes.ofPuts (Field.addArgument_puts name v) fun _ =>
      ⟨fun args => Keyed.insert name v args, fun _ => rfl⟩
  | case6 args =>
    exact Writes.ofPuts (Field.setArguments_puts args) fun _ => ⟨fun _ => args, fun _ => rfl⟩
  | case7 step => exact .select (fun _ _ => rfl) step.child

theorem FragmentStep.touchesInPlace (step : FragmentStep) :
    Touches step.attribute? fun f => (step.inPlace f).state := by
  fun_induction FragmentStep.attribute? step with
  | case1 => exact fun _ => rfl
  | case2 step ih => exact ih
  | case3 shape => exact .directive (fun _ _ => rfl) shape
  | case4 step => exact .select (fun _ _ => rfl) step.child

theorem FragmentStep.touchesDefining (step : FragmentStep) :
    Touches step.attribute? fun f => (step.defining f).state := by
  fun_induction FragmentStep.attribute? step with
  | case1 => exact fun _ => rfl
  | case2 step ih => exact ih
  | case3 shape => exact .directive (fun _ _ => rfl) shape
  | case4 step => exact .select (fun _ _ => rfl) step.child

theorem insertVariable_writes (name : String) (d : VariableDefinition) :
    Writes .declared (Operation.insertVariable name d) :=
  ⟨fun ds => Keyed.insert (bareName name) d ds, fun _ => rfl⟩

/-- Whether a change of the series fails does not depend on the operation, so that the series always
stops at the same place. -/
theorem addVariables_writes (ds : List (String × VariableShape)) :
    Writes .declared (Operation.addVariables ds).left := by
  induction ds with
  | nil => exact .nothing .declared
  | cons d ds ih =>
    have hput := Operation.addVariable_puts d.1 d.2
    have hleft : (Operation.addVariables (d :: ds)).left = fun o =>
        if (Operation.addVariable d.1 d.2).failure o = none then
          (Operation.addVariables ds).left ((Operation.addVariable d.1 d.2).left o)
        else (Operation.addVariable d.1 d.2).left o :=
      funext (Change.left_andThen _ _)
    rw [hleft]
    cases hx : Operation.declaration d.1 d.2 with
    | error e =>
      simp only [hput.failure_of_error hx, hput.left_of_error hx, reduceCtorEq, if_false]
      exact .nothing .declared
    | ok y =>
      simp only [hput.failure_of_ok hx, hput.left_of_ok hx, if_true]
      exact (insertVariable_writes d.1 y).andThen ih

/-- Declaring anew first forgets all variables and then declares some, and both write to the
same attribute. -/
theorem OperationStep.touches (step : OperationStep) :
    Touches step.attribute? fun o => (step.action o).state := by
  induction step with
  | look => exact fun _ => rfl
  | attempt step ih => exact ih
  | directive shape => exact .directive (fun _ _ => rfl) shape
  | directives shapes =>
    exact Writes.ofPuts (Operation.setDirectives_puts shapes) fun ds =>
      ⟨fun _ => ds, fun _ => rfl⟩
  | declare name shape =>
    exact Writes.ofPuts (Operation.addVariable_puts name shape) (insertVariable_writes name)
  | declareAll ds =>
    have hforget : Writes .declared fun o : Operation => { o with declared := [] } :=
      ⟨fun _ => [], fun _ => rfl⟩
    exact hforget.andThen (addVariables_writes ds)
  | select step => exact .select (fun _ _ => rfl) step.child

/-- All steps of a document that write at all write to its definitions, so that none of them may
be moved before another. -/
theorem DocumentStep.touches (step : DocumentStep) :
    Touches step.attribute? fun d => (step.action d).state := by
  have hadd (x : Definition) : Writes .definitions (Document.add x) :=
    ⟨fun (ds : List Definition) => ds ++ [x], fun _ => rfl⟩
  induction step with
  | look => exact fun _ => rfl
  | attempt step ih => exact ih
  | operation kind name block => exact Writes.adopt hadd _
  | fragment name type block => exact Writes.adopt hadd _
  | add program => exact Writes.adopt hadd _
  | unknown => exact Writes.adopt hadd _

/-- For each attribute the same steps in the same order. Looks are free. -/
def Interleaved (attribute? : τ → Option Attribute) (xs ys : List τ) : Prop :=
  ∀ a, xs.filter (attribute? · == some a) = ys.filter (attribute? · == some a)

/-- No step fails, on whatever node. What an attempt swallows is no failure. -/
def Steady (act : τ → Action σ) (steps : List τ) : Prop :=
  ∀ step ∈ steps, ∀ s, (act step s).failure = none

/-- The node behind all the steps. -/
def through (act : τ → Action σ) (steps : List τ) (s : σ) : σ :=
  steps.foldl (fun s step => (act step s).state) s

/-- The steps of a block, told apart by what they write to. -/
structure Separate [Visible σ] (attribute? : τ → Option Attribute) (act : τ → Action σ) : Prop where
  touches : ∀ step, Touches (attribute? step) fun s => (act step s).state
  failure : ∀ step s t, (act step s).failure = (act step t).failure
  trace : ∀ step s t, (act step s).record.trace = (act step t).record.trace
  idle : ∀ step, attribute? step = none → ∀ s, (act step s).failure = none
  shown : ∀ s t : σ, Visible.node s = Visible.node t → s = t

/-- How a step ends, and what is done inside it, is the same on every node. Blocks that are
interleaved differently end in the same node, if nothing stops one of them. -/
structure Commutes [Visible σ] (attribute? : τ → Option Attribute) (act : τ → Action σ) : Prop where
  failure : ∀ step s t, (act step s).failure = (act step t).failure
  trace : ∀ step s t, (act step s).record.trace = (act step t).record.trace
  run : ∀ xs ys, Interleaved attribute? xs ys → ∀ s,
    (Action.runAll (xs.map act) s).failure = none →
      (Action.runAll (ys.map act) s).failure = none ∧
        (Action.runAll (ys.map act) s).state = (Action.runAll (xs.map act) s).state

theorem Steady.runAll {act : τ → Action σ} {steps : List τ} (h : Steady act steps) (s : σ) :
    (Action.runAll (steps.map act) s).failure = none ∧
      (Action.runAll (steps.map act) s).state = through act steps s := by
  induction steps generalizing s with
  | nil => exact ⟨rfl, rfl⟩
  | cons step steps ih =>
    obtain ⟨hstep, hsteps⟩ := List.forall_mem_cons.1 h
    rw [List.map_cons, Action.runAll_cons_of_success (hstep s)]
    exact ih hsteps (act step s).state

namespace Separate

variable [Visible σ] {attribute? : τ → Option Attribute} {act : τ → Action σ}

/-- If the steps got through on one node, they get through on every one. -/
theorem steady_of_runAll (h : Separate attribute? act) {steps : List τ} {s : σ}
    (hs : (Action.runAll (steps.map act) s).failure = none) : Steady act steps := by
  induction steps generalizing s with
  | nil => exact fun _ hmem => (nomatch hmem)
  | cons step steps ih =>
    rw [List.map_cons] at hs
    cases hstep : (act step s).failure with
    | some e =>
      rw [Action.runAll_cons_of_failure hstep] at hs
      cases hs
    | none =>
      rw [Action.runAll_cons_of_success hstep] at hs
      exact List.forall_mem_cons.2 ⟨fun t => (h.failure step t s).trans hstep, ih hs⟩

/-- The other order has the same steps, except for those that do nothing. -/
theorem steady (h : Separate attribute? act) {xs ys : List τ}
    (hi : Interleaved attribute? xs ys) (hx : Steady act xs) : Steady act ys := by
  intro step hstep s
  cases ha : attribute? step with
  | none => exact h.idle step ha s
  | some a =>
    have hmem : step ∈ ys.filter (attribute? · == some a) :=
      List.mem_filter.2 ⟨hstep, by rw [ha]; exact BEq.rfl⟩
    rw [← hi a] at hmem
    exact hx step (List.mem_filter.1 hmem).1 s

theorem bare_through (h : Separate attribute? act) (steps : List τ) (s : σ) :
    (Visible.node (through act steps s)).bare = (Visible.node s).bare := by
  induction steps generalizing s with
  | nil => rfl
  | cons step steps ih => exact (ih (act step s).state).trans ((h.touches step).bare s)

/-- Of an attribute a block leaves what the steps that write there leave of it. -/
theorem content?_through (h : Separate attribute? act) (a : Attribute) (steps : List τ) (s t : σ)
    (hst : (Visible.node s).content? a = (Visible.node t).content? a) :
    (Visible.node (through act steps s)).content? a =
      (Visible.node (through act (steps.filter (attribute? · == some a)) t)).content? a := by
  induction steps generalizing s t with
  | nil => exact hst
  | cons step steps ih =>
    have htouch := h.touches step
    by_cases ha : attribute? step = some a
    · rw [List.filter_cons_of_pos (by rw [ha]; exact BEq.rfl)]
      rw [ha] at htouch
      exact ih _ _ (htouch.content?_self hst)
    · rw [List.filter_cons_of_neg (by simpa using ha)]
      exact ih _ _ ((htouch.content?_of_ne ha s).trans hst)

/-- The nodes agree on every attribute and on what no step writes to. -/
theorem through_eq (h : Separate attribute? act) {xs ys : List τ}
    (hi : Interleaved attribute? xs ys) (s : σ) : through act ys s = through act xs s := by
  refine h.shown _ _ (Node.ext_content ?_ fun a => ?_)
  · rw [h.bare_through, h.bare_through]
  · rw [h.content?_through a ys s s rfl, h.content?_through a xs s s rfl, hi a]

/-- All that is asked of the steps of a block is that each writes to one attribute, without a
look at the others. -/
theorem commutes (h : Separate attribute? act) : Commutes attribute? act := by
  refine ⟨h.failure, h.trace, fun xs ys hi s hx => ?_⟩
  have hsteady := h.steady_of_runAll hx
  obtain ⟨hnone, hy⟩ := (h.steady hi hsteady).runAll s
  exact ⟨hnone, by rw [hy, (hsteady.runAll s).2, h.through_eq hi]⟩

/-- What is built does not depend on the interleaving. -/
theorem result_build (h : Separate attribute? act) {xs ys : List τ}
    (hi : Interleaved attribute? xs ys) (hx : Steady act xs) (start : Built σ)
    (close : σ → Built α) :
    (Child.build start (ys.map act) close).result =
      (Child.build start (xs.map act) close).result := by
  cases start with
  | error e => rfl
  | ok s =>
    obtain ⟨hnone, hstate⟩ := hx.runAll s
    obtain ⟨hnone', hstate'⟩ := (h.steady hi hx).runAll s
    simp only [Child.build, hnone, hstate, hnone', hstate', h.through_eq hi]

end Separate

/-- How the steps end has been read off the steps already. -/
theorem Separate.of_acts [Visible σ] {ξ : Type} {view : σ → List ξ}
    {attribute? : τ → Option Attribute} {act : τ → Action σ} {faults : τ → List BuildError}
    {trace : τ → Trace} {left : τ → Option ξ}
    (hacts : ∀ step, Acts view (act step) (faults step) (trace step) (left step))
    (htouches : ∀ step, Touches (attribute? step) fun s => (act step s).state)
    (hidle : ∀ step, attribute? step = none → faults step = [])
    (hshown : ∀ s t : σ, Visible.node s = Visible.node t → s = t) :
    Separate attribute? act where
  touches := htouches
  failure step s t := ((hacts step).failure s).trans ((hacts step).failure t).symm
  trace step s t := ((hacts step).trace s).trans ((hacts step).trace t).symm
  idle step h s := by rw [(hacts step).failure s, hidle step h, List.head?_nil]
  shown := hshown

theorem SpreadStep.separate : Separate SpreadStep.attribute? SpreadStep.action := by
  refine .of_acts SpreadStep.acts SpreadStep.touches (fun step h => ?_) fun _ _ =>
    Node.fragmentSpread.inj
  cases step with
  | look | attempt => rfl
  | _ => cases h

/-- The steps of a field are told apart by what they write to, whatever stands in their
blocks. -/
theorem FieldStep.separate : Separate FieldStep.attribute? FieldStep.action := by
  refine .of_acts FieldStep.acts FieldStep.touches (fun step h => ?_) fun _ _ => Node.field.inj
  cases step with
  | look | attempt => rfl
  | _ => cases h

/-- A step without an attribute to write to is a look, or attempts one. -/
theorem FragmentStep.idle {step : FragmentStep} (h : step.attribute? = none) :
    step.faults = [] := by
  cases step with
  | look | attempt => rfl
  | _ => cases h

theorem FragmentStep.separateInPlace : Separate FragmentStep.attribute? FragmentStep.inPlace :=
  .of_acts FragmentStep.actsInPlace FragmentStep.touchesInPlace (fun _ => FragmentStep.idle)
    fun _ _ => Node.inlineFragment.inj

theorem FragmentStep.separateDefining :
    Separate FragmentStep.attribute? FragmentStep.defining :=
  .of_acts FragmentStep.actsDefining FragmentStep.touchesDefining (fun _ => FragmentStep.idle)
    fun _ _ => Node.fragmentDefinition.inj

theorem OperationStep.separate : Separate OperationStep.attribute? OperationStep.action := by
  refine .of_acts OperationStep.acts OperationStep.touches (fun step h => ?_) fun _ _ =>
    Node.operation.inj
  cases step with
  | look | attempt => rfl
  | _ => cases h

theorem DocumentStep.separate : Separate DocumentStep.attribute? DocumentStep.action := by
  refine .of_acts DocumentStep.acts DocumentStep.touches (fun step h => ?_) fun _ _ =>
    Node.document.inj
  cases step with
  | look | attempt => rfl
  | _ => cases h

namespace Program

/-- Two programs for the same node whose blocks are interleaved differently. -/
inductive Rearranged : Program → Program → Prop
  | document {xs ys : List DocumentStep} (h : Interleaved DocumentStep.attribute? xs ys) :
    Rearranged (.document xs) (.document ys)
  | operation (kind : OperationKind) (name : Option String) {xs ys : List OperationStep}
    (h : Interleaved OperationStep.attribute? xs ys) :
    Rearranged (.definition (.operation kind name xs)) (.definition (.operation kind name ys))
  | fragment (name type : String) {xs ys : List FragmentStep}
    (h : Interleaved FragmentStep.attribute? xs ys) :
    Rearranged (.definition (.fragment name type xs)) (.definition (.fragment name type ys))
  | field (name : String) {xs ys : List FieldStep} (h : Interleaved FieldStep.attribute? xs ys) :
    Rearranged (.selection (.field name xs)) (.selection (.field name ys))
  | spread (name : String) {xs ys : List SpreadStep}
    (h : Interleaved SpreadStep.attribute? xs ys) :
    Rearranged (.selection (.spread name xs)) (.selection (.spread name ys))
  | inlineFragment (type : Option String) {xs ys : List FragmentStep}
    (h : Interleaved FragmentStep.attribute? xs ys) :
    Rearranged (.selection (.inlineFragment type xs)) (.selection (.inlineFragment type ys))

/-- No step of the program's block fails. -/
def Unfailing : Program → Prop
  | .document block => Steady DocumentStep.action block
  | .definition (.operation _ _ block) => Steady OperationStep.action block
  | .definition (.fragment _ _ block) => Steady FragmentStep.defining block
  | .selection (.field _ block) => Steady FieldStep.action block
  | .selection (.spread _ block) => Steady SpreadStep.action block
  | .selection (.spreadWith _ _) => True
  | .selection (.inlineFragment _ block) => Steady FragmentStep.inPlace block

/-- The faults outside the block: those of the node's own name and type, and that of an inline
fragment which is left without selections. -/
def ownFaults : Program → List BuildError
  | .document _ => []
  | .definition (.operation _ name _) => operationFaults name
  | .definition (.fragment name type _) => fragmentFaults name type
  | .selection (.field name _) => absent name (.missingName .field)
  | .selection (.spread name _) => absent name (.missingName .fragmentSpread)
  | .selection (.spreadWith name shapes) => spreadFaults name shapes
  | .selection (.inlineFragment type block) =>
    emptyFaults type (FragmentStep.anySelects block)

end Program

/-- A block whose steps cannot fail has no faults. -/
theorem Runs.faults_eq_nil {ξ : Type} {view : σ → List ξ} {act : τ → Action σ} {steps : List τ}
    {faults : List BuildError} {ts : List Trace} {left : List ξ}
    (h : Runs view (steps.map act) faults ts left) (hs : Steady act steps) (s : σ) :
    faults = [] := by
  have hnone := (hs.runAll s).1
  rw [h.failure s] at hnone
  exact List.head?_eq_none_iff.1 hnone

namespace Program

/-- If no step can fail, then only starting and closing the node can. -/
theorem faults_eq_ownFaults {program : Program} (h : program.Unfailing) :
    program.faults = program.ownFaults := by
  match program with
  | .document block => exact (DocumentStep.runs block).faults_eq_nil h {}
  | .definition (.operation kind name block) =>
    have hblock := (OperationStep.runs block).faults_eq_nil h { kind }
    exact (congrArg (operationFaults name ++ ·) hblock).trans (List.append_nil _)
  | .definition (.fragment name type block) =>
    have hblock := (FragmentStep.runsDefining block).faults_eq_nil h ⟨name, type, [], []⟩
    exact (congrArg (fragmentFaults name type ++ ·) hblock).trans (List.append_nil _)
  | .selection (.field name block) =>
    have hruns := FieldStep.runs block
    rw [FieldStep.actions_eq_map] at hruns
    have hblock := hruns.faults_eq_nil h { name }
    exact (congrArg (absent name (.missingName .field) ++ ·) hblock).trans (List.append_nil _)
  | .selection (.spread name block) =>
    have hblock := (SpreadStep.runs block).faults_eq_nil h { name }
    exact (congrArg (absent name (.missingName .fragmentSpread) ++ ·) hblock).trans
      (List.append_nil _)
  | .selection (.spreadWith name shapes) => rfl
  | .selection (.inlineFragment type block) =>
    have hruns := FragmentStep.runsInPlace block
    rw [FragmentStep.allInPlace_eq_map] at hruns
    have hblock := hruns.faults_eq_nil h {}
    exact congrArg (· ++ emptyFaults type (FragmentStep.anySelects block)) hblock

theorem Rearranged.unfailing {p q : Program} (h : p.Rearranged q) (hp : p.Unfailing) :
    q.Unfailing := by
  cases h with
  | document h => exact DocumentStep.separate.steady h hp
  | operation kind name h => exact OperationStep.separate.steady h hp
  | fragment name type h => exact FragmentStep.separateDefining.steady h hp
  | field name h => exact FieldStep.separate.steady h hp
  | spread name h => exact SpreadStep.separate.steady h hp
  | inlineFragment type h => exact FragmentStep.separateInPlace.steady h hp

/-- A rearranged program ends in the same node, or in the same error on closing it. -/
theorem Rearranged.result_eq {p q : Program} (h : p.Rearranged q) (hp : p.Unfailing) :
    q.child.result = p.child.result := by
  cases h with
  | document h =>
    exact congrArg (Node.document <$> ·) (DocumentStep.separate.result_build h hp _ _)
  | operation kind name h =>
    exact congrArg (Node.operation <$> ·) (OperationStep.separate.result_build h hp _ _)
  | fragment name type h =>
    exact congrArg (Node.fragmentDefinition <$> ·)
      (FragmentStep.separateDefining.result_build h hp _ _)
  | field name h =>
    simp only [Program.child, fieldChild, FieldStep.actions_eq_map]
    exact congrArg (Node.field <$> ·) (FieldStep.separate.result_build h hp _ _)
  | spread name h =>
    exact congrArg (Node.fragmentSpread <$> ·) (SpreadStep.separate.result_build h hp _ _)
  | inlineFragment type h =>
    simp only [Program.child, inlineFragmentChild, FragmentStep.allInPlace_eq_map]
    exact congrArg (Node.inlineFragment <$> ·)
      (FragmentStep.separateInPlace.result_build h hp _ _)

end Program

/-- Steps that write to different attributes commute, on nodes of every kind, among them steps that
fail where this is swallowed and the declaration of all variables, which may fail halfway. Programs
whose steps do not fail and stand in the same order for each attribute build the same, and this is a
node, with all its maps in the same order, unless it is refused for its own name or type or as an
inline fragment without selections. -/
theorem steps_commute :
    Commutes SpreadStep.attribute? SpreadStep.action ∧
    Commutes FieldStep.attribute? FieldStep.action ∧
    Commutes FragmentStep.attribute? FragmentStep.inPlace ∧
    Commutes FragmentStep.attribute? FragmentStep.defining ∧
    Commutes OperationStep.attribute? OperationStep.action ∧
    Commutes DocumentStep.attribute? DocumentStep.action ∧
    ∀ p q : Program, p.Rearranged q → p.Unfailing →
      q.Unfailing ∧ q.child.result = p.child.result ∧
      ((∃ node, p.child.result = .ok node) ↔ p.ownFaults = []) ∧
      ∀ e, p.child.result = .error e ↔ p.ownFaults.head? = some e := by
  refine ⟨SpreadStep.separate.commutes, FieldStep.separate.commutes,
    FragmentStep.separateInPlace.commutes, FragmentStep.separateDefining.commutes,
    OperationStep.separate.commutes, DocumentStep.separate.commutes, fun p q h hp => ?_⟩
  have hresult := p.builds.result
  rw [Program.faults_eq_ownFaults hp] at hresult
  exact ⟨h.unfailing hp, h.result_eq hp, hresult.ok_iff, hresult.error_iff⟩

/-- The second variable has no name; the first is kept, and the failure swallowed. -/
def halfDeclaring : OperationStep :=
  .attempt (.declareAll [("$a", .type "A"), ("$", .type "A")])

theorem steps_commute_of_halfDeclaring :
    let p : Program := .definition (.operation .query none
      [.directive (.name "d"), halfDeclaring, .select (.field "f"), .declare "b" (.type "B"),
        .directive (.name "@e")])
    let q : Program := .definition (.operation .query none
      [.select (.field "f"), halfDeclaring, .directive (.name "d"), .look,
        .directive (.name "@e"), .declare "b" (.type "B")])
    p.Rearranged q ∧ p.Unfailing ∧
      q.child.result = .ok (.operation {
        kind := .query
        declared := [("a", { type := "A" }), ("b", { type := "B" })]
        directives := [{ name := "d" }, { name := "@e" }]
        selections := [.field { name := "f" }] }) := by
  intro p q
  have hpq : p.Rearranged q := .operation .query none fun a => by cases a <;> rfl
  have hp : p.Unfailing := by
    simp only [p, Program.Unfailing, Steady, List.forall_mem_cons]
    exact ⟨fun _ => rfl, fun _ => rfl, fun _ => rfl, fun _ => rfl, fun _ => rfl,
      List.forall_mem_nil _⟩
  exact ⟨hpq, hp, (steps_commute.2.2.2.2.2.2 p q hpq hp).2.1.trans rfl⟩

/-- No step fails, and yet the fragment is refused, for it has no selection. -/
theorem emptied_refused :
    ¬ ∀ xs ys : List FragmentStep, Interleaved FragmentStep.attribute? xs ys →
      Steady FragmentStep.inPlace xs → Steady FragmentStep.inPlace ys →
        ∃ node, (Program.selection (.inlineFragment (some "T") xs)).child.result = .ok node ∧
          (Program.selection (.inlineFragment (some "T") ys)).child.result = .ok node := by
  intro h
  have hx : Steady FragmentStep.inPlace
      [.directive (.name "d"), .attempt (.select (.field ""))] := by
    simp only [Steady, List.forall_mem_cons]
    exact ⟨fun _ => rfl, fun _ => rfl, List.forall_mem_nil _⟩
  have hy : Steady FragmentStep.inPlace
      [.attempt (.select (.field "")), .directive (.name "d")] := by
    simp only [Steady, List.forall_mem_cons]
    exact ⟨fun _ => rfl, fun _ => rfl, List.forall_mem_nil _⟩
  obtain ⟨node, hnode, -⟩ := h _ _ (fun a => by cases a <;> rfl) hx hy
  have hrefused := hnode.symm.trans (show _ = .error (.missingSelection (some "T")) from rfl)
  cases hrefused

end Build
end QueryDocument
