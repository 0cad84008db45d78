import QueryDocument.Proofs.Construction.Invariant

/-!
What a step does to the node in whose block it stands. A step that fails leaves the node as it was;
a step that succeeds changes one attribute, in the way that its `Effect` tells, and no other. The
one exception is the step that declares all variables anew: it drops the old ones before it fails.
-/
namespace QueryDocument

/-- `v` is written to the entry of `k`, which stays in its place; if there is none it comes last. -/
inductive Keyed.Written {α : Type} (k : String) (v : α) : Keyed α → Keyed α → Prop where
  | replaced (before : Keyed α) (w : α) (after : Keyed α) (hb : k ∉ keys before) :
    Written k v (before ++ (k, w) :: after) (before ++ (k, v) :: after)
  | added {es : Keyed α} (he : k ∉ keys es) : Written k v es (es ++ [(k, v)])

theorem Keyed.Written.cons {α : Type} {k : String} {v : α} {es es' : Keyed α}
    (h : Written k v es es') {e : String × α} (hk : e.1 ≠ k) :
    Written k v (e :: es) (e :: es') := by
  cases h with
  | replaced before w after hb =>
    exact .replaced (e :: before) w after (List.not_mem_cons_of_ne_of_not_mem hk.symm hb)
  | added he => exact .added (List.not_mem_cons_of_ne_of_not_mem hk.symm he)

/-- An insertion writes to one entry and moves none. -/
theorem Keyed.written_insert {α : Type} (k : String) (v : α) (es : Keyed α) :
    Written k v es (insert k v es) := by
  induction es with
  | nil => exact .added (by simp)
  | cons e es ih =>
    rw [insert]
    split
    · rename_i he
      subst he
      exact .replaced [] e.2 es (by simp)
    · rename_i hk
      exact ih.cons hk

namespace Build

def SpreadStep.Effect : SpreadStep → FragmentSpread → FragmentSpread → Prop
  | .look, s, s' => s' = s
  | .attempt step, s, s' => s' = s ∨ step.Effect s s'
  | .directive shape, s, s' =>
    ∃ d, Directive.ofShape shape = .ok d ∧ s' = { s with directives := s.directives ++ [d] }

def FieldStep.Effect : FieldStep → Field → Field → Prop
  | .look, f, f' => f' = f
  | .attempt step, f, f' => f' = f ∨ step.Effect f f'
  | .directive shape, f, f' =>
    ∃ d, Directive.ofShape shape = .ok d ∧ f' = { f with directives := f.directives ++ [d] }
  | .label text, f, f' => f' = { f with label := some text }
  | .argument name v, f, f' =>
    ∃ args, Keyed.Written name v f.arguments args ∧ f' = { f with arguments := args }
  | .arguments args, f, f' => f' = { f with arguments := args }
  | .select step, f, f' =>
    ∃ x, step.child.result = .ok x ∧ f' = { f with selections := f.selections ++ [x] }

def FragmentStep.EffectInPlace : FragmentStep → InlineFragment → InlineFragment → Prop
  | .look, f, f' => f' = f
  | .attempt step, f, f' => f' = f ∨ step.EffectInPlace f f'
  | .directive shape, f, f' =>
    ∃ d, Directive.ofShape shape = .ok d ∧ f' = { f with directives := f.directives ++ [d] }
  | .select step, f, f' =>
    ∃ x, step.child.result = .ok x ∧ f' = { f with selections := f.selections ++ [x] }

def FragmentStep.EffectDefining : FragmentStep → FragmentDefinition → FragmentDefinition → Prop
  | .look, f, f' => f' = f
  | .attempt step, f, f' => f' = f ∨ step.EffectDefining f f'
  | .directive shape, f, f' =>
    ∃ d, Directive.ofShape shape = .ok d ∧ f' = { f with directives := f.directives ++ [d] }
  | .select step, f, f' =>
    ∃ x, step.child.result = .ok x ∧ f' = { f with selections := f.selections ++ [x] }

/-- Also a step that declares all variables anew changes nothing but these. -/
def OperationStep.Effect : OperationStep → Operation → Operation → Prop
  | .look, o, o' => o' = o
  | .attempt step, o, o' => o' = o ∨ step.Effect o o'
  | .directive shape, o, o' =>
    ∃ d, Directive.ofShape shape = .ok d ∧ o' = { o with directives := o.directives ++ [d] }
  | .directives shapes, o, o' =>
    ∃ ds, Directive.ofShapes shapes = .ok ds ∧ o' = { o with directives := ds }
  | .declare name shape, o, o' =>
    ∃ d ds, VariableDefinition.ofShape shape = .ok d ∧
      Keyed.Written (bareName name) d o.declared ds ∧ o' = { o with declared := ds }
  | .declareAll _, o, o' => ∃ ds, o' = { o with declared := ds }
  | .select step, o, o' =>
    ∃ x, step.child.result = .ok x ∧ o' = { o with selections := o.selections ++ [x] }

def DocumentStep.Effect : DocumentStep → Document → Document → Prop
  | .look, d, d' => d' = d
  | .attempt step, d, d' => d' = d ∨ step.Effect d d'
  | .operation kind name block, d, d' =>
    ∃ o, (operationChild kind name block).result = .ok o ∧
      d' = { d with definitions := d.definitions ++ [.operation o] }
  | .fragment name type block, d, d' =>
    ∃ f, (fragmentChild name type block).result = .ok f ∧
      d' = { d with definitions := d.definitions ++ [.fragment f] }
  | .add program, d, d' =>
    ∃ x, program.child.result = .ok x ∧ d' = { d with definitions := d.definitions ++ [x] }
  | .unknown, d, d' => d' = { d with definitions := d.definitions ++ [.unknown] }

variable {σ τ α β : Type}

namespace Action

/-- Where the action fails it leaves the node as it was, and where it succeeds it has the effect. -/
structure Framed (E : σ → σ → Prop) (a : Action σ) : Prop where
  failed : ∀ s e, (a s).failure = some e → (a s).state = s
  done : ∀ s, (a s).failure = none → E s (a s).state

namespace Framed

variable {E : σ → σ → Prop} {a : Action σ}

/-- The node that is left is the one given, or one that the effect leads to. -/
theorem changes (h : Framed E a) (s : σ) : (a s).state = s ∨ E s (a s).state := by
  cases hf : (a s).failure with
  | some e => exact .inl (h.failed s e hf)
  | none => exact .inr (h.done s hf)

theorem look [Visible σ] : Framed (fun s s' => s' = s) (look : Action σ) :=
  ⟨fun _ _ _ => rfl, fun _ _ => rfl⟩

/-- It does not matter here whether what is attempted leaves the node alone when it fails. -/
theorem attempt (h : ∀ s, (a s).state = s ∨ E s (a s).state) :
    Framed (fun s s' => s' = s ∨ E s s') a.attempt :=
  ⟨fun _ _ hf => (nomatch hf), fun s _ => h s⟩

/-- The change checks before it writes, so that a failure leaves the node as it was. -/
theorem after [Visible σ] {inside : List Record} {c : Change σ Unit} {x : Built β}
    {put : β → σ → σ} (hc : c.Puts x put) (h : ∀ y, x = .ok y → ∀ s, E s (put y s)) :
    Framed E (Action.after inside c) := by
  refine ⟨fun s e hf => hc.left_of_failure hf, fun s hf => ?_⟩
  obtain ⟨y, hx, hs⟩ := hc.exists_of_success hf
  change E s (c.left s)
  rw [hs]
  exact h y hx s

/-- A child that could not be built leaves the parent as it was. -/
theorem adopt [Visible σ] {add : α → σ → σ} {child : Child α}
    (h : ∀ x, child.result = .ok x → ∀ s, E s (add x s)) : Framed E (adopt add child) :=
  after (Change.puts_bind child.result add) h

theorem directive [Annotated σ] [Visible σ] (shape : DirectiveShape) :
    Framed (fun s s' => ∃ d, Directive.ofShape shape = .ok d ∧ s' = Annotated.annotate d s)
      (Action.ofChange (addDirective shape) : Action σ) :=
  after (addDirective_puts shape) fun d hd _ => ⟨d, hd, rfl⟩

theorem select [Selecting σ] [Visible σ] (child : Child Selection) :
    Framed (fun s s' => ∃ x, child.result = .ok x ∧ s' = Selecting.select x s)
      (Action.adopt Selecting.select child : Action σ) :=
  adopt fun x hx _ => ⟨x, hx, rfl⟩

end Framed
end Action

open QueryDocument.Build.Action

theorem SpreadStep.framed (step : SpreadStep) : Framed step.Effect step.action := by
  induction step with
  | look => exact .look
  | attempt step ih => exact .attempt ih.changes
  | directive shape => exact .directive shape

/-- For an attempt this says that either nothing happened or all of what the step does. -/
theorem FieldStep.framed : (step : FieldStep) → Framed step.Effect step.action
  | .look => .look
  | .attempt step => .attempt (FieldStep.framed step).changes
  | .directive shape => .directive shape
  | .label text => .after (Field.setLabel_puts text) fun _ _ _ => rfl
  | .argument name v => .after (Field.addArgument_puts name v) fun _ _ f =>
    ⟨_, Keyed.written_insert name v f.arguments, rfl⟩
  | .arguments args => .after (Field.setArguments_puts args) fun _ _ _ => rfl
  | .select step => .select step.child

theorem FragmentStep.framedInPlace : (step : FragmentStep) →
    Framed step.EffectInPlace step.inPlace
  | .look => .look
  | .attempt step => .attempt (FragmentStep.framedInPlace step).changes
  | .directive shape => .directive shape
  | .select step => .select step.child

theorem FragmentStep.framedDefining : (step : FragmentStep) →
    Framed step.EffectDefining step.defining
  | .look => .look
  | .attempt step => .attempt (FragmentStep.framedDefining step).changes
  | .directive shape => .directive shape
  | .select step => .select step.child

theorem OperationStep.framed_directives (shapes : List DirectiveShape) :
    Framed (Effect (.directives shapes)) (action (.directives shapes)) :=
  .after (Operation.setDirectives_puts shapes) fun ds hds _ => ⟨ds, hds, rfl⟩

/-- A refused name, type, default or directive of a variable leaves the variables as they
were. -/
theorem OperationStep.framed_declare (name : String) (shape : VariableShape) :
    Framed (Effect (.declare name shape)) (action (.declare name shape)) := by
  refine .after (Operation.addVariable_puts name shape) fun d hd o => ?_
  unfold Operation.declaration at hd
  split at hd
  · cases hd
  · exact ⟨d, _, Outcome.mapError_eq_ok.1 hd, Keyed.written_insert _ d o.declared, rfl⟩

/-- What is attempted may be the declaration of all variables, which has its effect in any case. -/
theorem OperationStep.changes (step : OperationStep) (o : Operation) :
    (step.action o).state = o ∨ step.Effect o (step.action o).state := by
  induction step with
  | look => exact .inl rfl
  | attempt step ih => exact .inr ih
  | directive shape => exact (Framed.directive shape).changes o
  | directives shapes => exact (framed_directives shapes).changes o
  | declare name shape => exact (framed_declare name shape).changes o
  | declareAll ds => exact .inr (Operation.exists_left_setVariables ds o)
  | select step => exact (Framed.select step.child).changes o

/-- Only the step that declares all variables anew is left out, which may have dropped and
declared some before it fails. -/
theorem OperationStep.framed {step : OperationStep} (h : ∀ ds, step ≠ .declareAll ds) :
    Framed step.Effect step.action := by
  cases step with
  | look => exact .look
  | attempt step => exact .attempt step.changes
  | directive shape => exact .directive shape
  | directives shapes => exact framed_directives shapes
  | declare name shape => exact framed_declare name shape
  | declareAll ds => exact absurd rfl (h ds)
  | select step => exact .select step.child

/-- A definition is appended as a whole or not at all. -/
theorem DocumentStep.framed (step : DocumentStep) : Framed step.Effect step.action := by
  induction step with
  | look => exact .look
  | attempt step ih => exact .attempt ih.changes
  | operation kind name block =>
    refine .adopt fun x hx _ => ?_
    obtain ⟨o, ho, rfl⟩ := Child.result_map hx
    exact ⟨o, ho, rfl⟩
  | fragment name type block =>
    refine .adopt fun x hx _ => ?_
    obtain ⟨f, hf, rfl⟩ := Child.result_map hx
    exact ⟨f, hf, rfl⟩
  | add program => exact .adopt fun x hx _ => ⟨x, hx, rfl⟩
  | unknown =>
    refine .adopt fun x hx _ => ?_
    cases hx
    rfl

/-- Every step leaves its node as it was if it fails, and has its effect and no other if it
succeeds. This holds on every node, for steps of every form and with every block inside them; only
the step that declares all variables anew may fail and still have changed them. -/
theorem step_framed :
    (∀ step : SpreadStep, Framed step.Effect step.action) ∧
      (∀ step : FieldStep, Framed step.Effect step.action) ∧
      (∀ step : FragmentStep, Framed step.EffectInPlace step.inPlace) ∧
      (∀ step : FragmentStep, Framed step.EffectDefining step.defining) ∧
      (∀ step : OperationStep, (∀ ds, step ≠ .declareAll ds) → Framed step.Effect step.action) ∧
      ∀ step : DocumentStep, Framed step.Effect step.action :=
  ⟨SpreadStep.framed, FieldStep.framed, FragmentStep.framedInPlace, FragmentStep.framedDefining,
    fun _ => OperationStep.framed, DocumentStep.framed⟩

/-- A variable without a type is refused, and the operation is as it was. -/
theorem step_framed_of_declare :
    (∀ ds, OperationStep.declare "$a" (.type "") ≠ .declareAll ds) ∧
      ∀ o, ((OperationStep.declare "$a" (.type "")).action o).failure =
          some (.missingType (.ofVariable "a")) ∧
        ((OperationStep.declare "$a" (.type "")).action o).state = o := by
  have hstep : ∀ ds, OperationStep.declare "$a" (.type "") ≠ .declareAll ds := nofun
  have hframed := step_framed.2.2.2.2.1 _ hstep
  exact ⟨hstep, fun o => ⟨rfl, hframed.failed o _ rfl⟩⟩

/-- The effects lead, one after the other, from the first node to the last. -/
inductive Leads (E : τ → σ → σ → Prop) : List τ → σ → σ → Prop where
  | nil (s : σ) : Leads E [] s s
  | cons {step : τ} {steps : List τ} {s t u : σ} (h : E step s t) (hs : Leads E steps t u) :
    Leads E (step :: steps) s u

/-- A block leaves what the effects of its steps lead to, up to the step that failed. -/
theorem Action.runAll_leads {act : τ → Action σ} {E : τ → σ → σ → Prop} {steps : List τ}
    (h : ∀ step ∈ steps, Framed (E step) (act step)) (s : σ) :
    ∃ done rest, steps = done ++ rest ∧ Leads E done s (runAll (steps.map act) s).state ∧
      ((runAll (steps.map act) s).failure = none → rest = []) := by
  induction steps generalizing s with
  | nil => exact ⟨[], [], rfl, .nil s, fun _ => rfl⟩
  | cons step steps ih =>
    rw [List.forall_mem_cons] at h
    rw [List.map_cons]
    cases hf : (act step s).failure with
    | some e =>
      rw [runAll_cons_of_failure hf, h.1.failed s e hf]
      exact ⟨[], step :: steps, rfl, .nil s, fun hn => nomatch hn⟩
    | none =>
      rw [runAll_cons_of_success hf]
      obtain ⟨done, rest, rfl, hleads, hrest⟩ := ih h.2 (act step s).state
      exact ⟨step :: done, rest, rfl, .cons (h.1.done s hf) hleads, hrest⟩

end Build
end QueryDocument
