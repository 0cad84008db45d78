import QueryDocument.Build.Log
import QueryDocument.Proofs.Construction.Change
import QueryDocument.Proofs.Construction.WellFormed

/-!
What a builder program leaves behind is well-formed: no action takes a well-formed node to one that
is not, whether the action fails or not, and a block that succeeds can be closed. An inline fragment
may lack selections while its block runs, and only then.
-/
namespace QueryDocument

open Build Change

theorem forall_mem_concat {α : Type} {P : α → Prop} {xs : List α} {x : α} (h : ∀ y ∈ xs, P y)
    (hx : P x) : ∀ y ∈ xs ++ [x], P y := by
  intro y hy
  rcases List.mem_append.1 hy with hy | hy
  · exact h y hy
  · rw [List.mem_singleton.1 hy]
    exact hx

theorem Field.wellFormed_iff (f : Field) :
    f.WellFormed ↔ f.name ≠ "" ∧ f.label ≠ some "" ∧ Arguments.WellFormed f.arguments ∧
      (∀ d ∈ f.directives, d.WellFormed) ∧ ∀ s ∈ f.selections, s.WellFormed := by
  obtain ⟨name, label, args, ds, ss⟩ := f
  rw [Field.WellFormed, Selection.wellFormedAll_iff]

/-- A finished inline fragment is an open one with a selection. -/
theorem InlineFragment.wellFormed_iff (f : InlineFragment) :
    f.WellFormed ↔ f.Open ∧ f.selections ≠ [] := by
  obtain ⟨type, ds, ss⟩ := f
  rw [InlineFragment.WellFormed, Selection.wellFormedAll_iff]
  constructor
  · rintro ⟨ht, hd, hn, hs⟩
    exact ⟨⟨ht, hd, hs⟩, hn⟩
  · rintro ⟨⟨ht, hd, hs⟩, hn⟩
    exact ⟨ht, hd, hn, hs⟩

/-- Directives that are well-formed may be added to a node with the property. -/
def AdmitsDirectives {σ : Type} [Annotated σ] (P : σ → Prop) : Prop :=
  ∀ s d, P s → d.WellFormed → P (Annotated.annotate d s)

def AdmitsSelections {σ : Type} [Selecting σ] (P : σ → Prop) : Prop :=
  ∀ s x, P s → x.WellFormed → P (Selecting.select x s)

theorem FragmentSpread.admitsDirectives : AdmitsDirectives FragmentSpread.WellFormed :=
  fun _ _ hs hd => ⟨hs.named, forall_mem_concat hs.directives hd⟩

theorem Field.admitsDirectives : AdmitsDirectives Field.WellFormed := by
  intro f d hf hd
  obtain ⟨hn, hl, ha, hds, hss⟩ := f.wellFormed_iff.1 hf
  exact (Field.wellFormed_iff _).2 ⟨hn, hl, ha, forall_mem_concat hds hd, hss⟩

theorem Field.admitsSelections : AdmitsSelections Field.WellFormed := by
  intro f x hf hx
  obtain ⟨hn, hl, ha, hds, hss⟩ := f.wellFormed_iff.1 hf
  exact (Field.wellFormed_iff _).2 ⟨hn, hl, ha, hds, forall_mem_concat hss hx⟩

theorem InlineFragment.admitsDirectives : AdmitsDirectives InlineFragment.Open :=
  fun _ _ hf hd => ⟨hf.typed, forall_mem_concat hf.directives hd, hf.selections⟩

theorem InlineFragment.admitsSelections : AdmitsSelections InlineFragment.Open :=
  fun _ _ hf hx => ⟨hf.typed, hf.directives, forall_mem_concat hf.selections hx⟩

theorem FragmentDefinition.admitsDirectives : AdmitsDirectives FragmentDefinition.WellFormed :=
  fun _ _ hf hd => { hf with directives := forall_mem_concat hf.directives hd }

theorem FragmentDefinition.admitsSelections : AdmitsSelections FragmentDefinition.WellFormed :=
  fun _ _ hf hx => { hf with selections := forall_mem_concat hf.selections hx }

theorem Operation.admitsDirectives : AdmitsDirectives Operation.WellFormed :=
  fun _ _ ho hd => { ho with directives := forall_mem_concat ho.directives hd }

theorem Operation.admitsSelections : AdmitsSelections Operation.WellFormed :=
  fun _ _ ho hx => { ho with selections := forall_mem_concat ho.selections hx }

/-- A field begins with a name and nothing else. -/
theorem Field.wellFormed_new {name : String} {f : Field} (h : Field.new name = .ok f) :
    f.WellFormed := by
  unfold Field.new at h
  split at h
  · cases h
  · rename_i hn
    cases h
    exact (Field.wellFormed_iff _).2
      ⟨by simpa using hn, by simp, Arguments.wellFormed_nil, by simp, by simp⟩

/-- A refused label leaves the one that was there, or none. -/
theorem Field.wellFormed_setLabel {label : String} {f : Field} (hf : f.WellFormed) :
    ((Field.setLabel label).left f).WellFormed := by
  refine (Field.setLabel_puts label).left_of_put (fun _ hlabel => ?_) hf
  obtain ⟨hn, -, ha, hds, hss⟩ := f.wellFormed_iff.1 hf
  split at hlabel
  · cases hlabel
  · rename_i hl
    exact (Field.wellFormed_iff _).2 ⟨hn, by simpa using hl, ha, hds, hss⟩

/-- Inserting under a name keeps the names apart. -/
theorem Arguments.WellFormed.insert {args : Arguments} (h : args.WellFormed) {name : String}
    (hn : name ≠ "") {v : Value} (hv : v.Distinct) :
    Arguments.WellFormed (Keyed.insert name v args) := by
  refine ⟨⟨h.keys.insert name v, ?_⟩, ?_⟩
  · rw [Value.distinctFields_iff]
    intro e he
    rcases Keyed.mem_insert he with rfl | he
    · exact hv
    · exact (Value.distinctFields_iff args).1 h.values e he
  · intro k hk
    rw [Keyed.keys_insert] at hk
    split at hk
    · exact h.named k hk
    · exact forall_mem_concat h.named hn k hk

theorem Field.wellFormed_addArgument {name : String} {v : Value} (hv : v.Distinct) {f : Field}
    (hf : f.WellFormed) : ((Field.addArgument name v).left f).WellFormed := by
  refine (Field.addArgument_puts name v).left_of_put (fun _ hname => ?_) hf
  obtain ⟨hn, hl, ha, hds, hss⟩ := f.wellFormed_iff.1 hf
  split at hname
  · cases hname
  · rename_i he
    exact (Field.wellFormed_iff _).2 ⟨hn, hl, ha.insert (by simpa using he) hv, hds, hss⟩

/-- That the map holds each name once is for the caller to see to. -/
theorem Field.wellFormed_setArguments {args : Arguments} (hd : args.Distinct) {f : Field}
    (hf : f.WellFormed) : ((Field.setArguments args).left f).WellFormed := by
  refine (Field.setArguments_puts args).left_of_put (fun _ hargs => ?_) hf
  obtain ⟨hn, hl, -, hds, hss⟩ := f.wellFormed_iff.1 hf
  exact (Field.wellFormed_iff _).2 ⟨hn, hl, ⟨hd, (checkArguments_ok_iff args).1 hargs⟩, hds, hss⟩

theorem FragmentSpread.wellFormed_new {name : String} {s : FragmentSpread}
    (h : FragmentSpread.new name = .ok s) : s.WellFormed := by
  unfold FragmentSpread.new at h
  split at h
  · cases h
  · rename_i hn
    cases h
    exact ⟨by simpa using hn, by simp⟩

/-- A spread that comes with its directives has them all checked before there is a spread. -/
theorem FragmentSpread.wellFormed_withDirectives {name : String} {shapes : List DirectiveShape}
    (hs : ∀ x ∈ shapes, x.Distinct) {s : FragmentSpread}
    (h : FragmentSpread.withDirectives name shapes = .ok s) : s.WellFormed := by
  obtain ⟨s₀, hs₀, h⟩ := Outcome.bind_eq_ok.1 h
  obtain ⟨ds, hds, h⟩ := Outcome.bind_eq_ok.1 h
  cases h
  exact ⟨(wellFormed_new hs₀).named, Directive.wellFormed_of_ofShapes hs hds⟩

/-- An empty type condition is dropped at once. -/
theorem InlineFragment.open_new (type : Option String) : (InlineFragment.new type).Open := by
  refine ⟨?_, by simp [InlineFragment.new], by simp [InlineFragment.new]⟩
  intro h
  have hf := (Option.filter_eq_some_iff.1 h).2
  simp at hf

/-- Closing is where an inline fragment without selections is refused. -/
theorem InlineFragment.wellFormed_close {f f' : InlineFragment} (hf : f.Open)
    (h : f.close = .ok f') : f'.WellFormed := by
  unfold InlineFragment.close at h
  split at h
  · cases h
  · rename_i hs
    cases h
    exact f.wellFormed_iff.2 ⟨hf, by simpa using hs⟩

theorem FragmentDefinition.wellFormed_new {name type : String} {f : FragmentDefinition}
    (h : FragmentDefinition.new name type = .ok f) : f.WellFormed := by
  unfold FragmentDefinition.new at h
  split at h
  · cases h
  · rename_i hn
    split at h
    · cases h
    · rename_i ht
      cases h
      exact ⟨by simpa using hn, by simpa using ht, by simp, by simp⟩

/-- An operation may have no name, but not an empty one. -/
theorem Operation.wellFormed_new {kind : OperationKind} {name : Option String} {o : Operation}
    (h : Operation.new kind name = .ok o) : o.WellFormed := by
  unfold Operation.new at h
  split at h
  · cases h
  · rename_i hn
    cases h
    exact ⟨hn, List.nodup_nil, by simp, by simp, by simp, by simp⟩

/-- A name that does not begin with a dollar sign. -/
def IsPlain (name : String) : Prop := name.toList.head? ≠ some '$'

/-- A name without a dollar sign is kept as it is. -/
theorem bareName_of_plain {name : String} (h : IsPlain name) : bareName name = name := by
  unfold bareName
  split
  · rename_i cs hcs
    rw [IsPlain, hcs] at h
    exact absurd rfl h
  · rfl

/-- Under a name that is left when a dollar sign is dropped, a definition may be put. -/
theorem Operation.WellFormed.insertVariable {o : Operation} (ho : o.WellFormed) {name : String}
    (hn : bareName name ≠ "") {d : VariableDefinition} (hd : d.WellFormed) :
    (o.insertVariable name d).WellFormed := by
  refine { ho with
    distinct := ho.distinct.insert (bareName name) d, variablesNamed := ?_, declarations := ?_ }
  · intro k hk
    rw [Operation.insertVariable, Keyed.keys_insert] at hk
    split at hk
    · exact ho.variablesNamed k hk
    · exact forall_mem_concat ho.variablesNamed hn k hk
  · intro e he
    rcases Keyed.mem_insert he with rfl | he
    · exact hd
    · exact ho.declarations e he

theorem Operation.wellFormed_declareAll {ds : Keyed VariableDefinition}
    (hd : ∀ d ∈ ds, d.2.WellFormed) {o : Operation} (ho : o.WellFormed) :
    ((Operation.declareAll ds).left o).WellFormed := by
  refine left_forM (fun d hm o ho => ?_) ho
  refine (Operation.declare_puts d.1 d.2).left_of_put (fun d' hd' => ?_) ho
  split at hd'
  · cases hd'
  · rename_i hn
    cases hd'
    exact ho.insertVariable hn (hd d hm)

theorem Operation.wellFormed_addVariable {name : String} {shape : VariableShape}
    (hs : shape.Distinct) {o : Operation} (ho : o.WellFormed) :
    ((Operation.addVariable name shape).left o).WellFormed := by
  refine (Operation.addVariable_puts name shape).left_of_put (fun d hd => ?_) ho
  unfold Operation.declaration at hd
  split at hd
  · cases hd
  · rename_i hn
    exact ho.insertVariable hn
      (VariableDefinition.wellFormed_of_ofShape hs (Outcome.mapError_eq_ok.1 hd))

/-- The declarations made before one fails are kept, and they are as good as any. -/
theorem Operation.wellFormed_setVariables {ds : List (String × VariableShape)}
    (hs : ∀ d ∈ ds, d.2.Distinct) {o : Operation} (ho : o.WellFormed) :
    ((Operation.setVariables ds).left o).WellFormed :=
  left_forM (fun d hm _ => Operation.wellFormed_addVariable (hs d hm))
    { ho with distinct := List.nodup_nil, variablesNamed := by simp, declarations := by simp }

theorem Operation.wellFormed_setDirectives {shapes : List DirectiveShape}
    (hs : ∀ s ∈ shapes, s.Distinct) {o : Operation} (ho : o.WellFormed) :
    ((Operation.setDirectives shapes).left o).WellFormed :=
  (Operation.setDirectives_puts shapes).left_of_put
    (fun _ hds => { ho with directives := Directive.wellFormed_of_ofShapes hs hds }) ho

namespace Build

variable {σ α β : Type}

namespace Action

/-- The action takes nodes with the property to nodes with it, also where it fails. -/
def Keeps (P : σ → Prop) (a : Action σ) : Prop := ∀ s, P s → P (a s).state

variable {P : σ → Prop}

theorem keeps_look [Visible σ] : Keeps P (look : Action σ) := fun _ hs => hs

theorem Keeps.attempt {a : Action σ} (h : Keeps P a) : Keeps P a.attempt := h

/-- It is enough to look at the node that the change leaves, for a failure leaves one too. -/
theorem keeps_ofChange [Visible σ] {c : Change σ Unit} (h : ∀ s, P s → P (c.left s)) :
    Keeps P (ofChange c) := h

theorem keeps_adopt [Visible σ] {add : α → σ → σ} {child : Child α}
    (h : ∀ a s, child.result = .ok a → P s → P (add a s)) : Keeps P (adopt add child) := fun s hs =>
  (puts_bind child.result add).left_of_put (fun a ha => h a s ha hs) hs

theorem keeps_directive [Annotated σ] [Visible σ] (hP : AdmitsDirectives P)
    {shape : DirectiveShape} (hs : shape.Distinct) : Keeps P (ofChange (addDirective shape)) :=
  keeps_ofChange fun s h => (addDirective_puts shape).left_of_put
    (fun d hd => hP s d h (Directive.wellFormed_of_ofShape hs hd)) h

theorem keeps_select [Selecting σ] [Visible σ] (hP : AdmitsSelections P) {child : Child Selection}
    (hc : ∀ x, child.result = .ok x → x.WellFormed) : Keeps P (adopt Selecting.select child) :=
  keeps_adopt fun x s hx hs => hP s x hs (hc x hx)

/-- A block keeps what each of its actions keeps, wherever it stops. -/
theorem Keeps.runAll {as : List (Action σ)} (h : ∀ a ∈ as, Keeps P a) {s : σ} (hs : P s) :
    P (runAll as s).state := by
  induction as generalizing s with
  | nil => exact hs
  | cons a as ih =>
    rw [List.forall_mem_cons] at h
    have ha := h.1 s hs
    cases hf : (a s).failure with
    | some e =>
      rw [runAll_cons_of_failure hf]
      exact ha
    | none =>
      rw [runAll_cons_of_success hf]
      exact ih h.2 ha

end Action

namespace Child

/-- A child that was built has been started, has run its whole block, and was closed. -/
theorem result_build {start : Built σ} {block : List (Action σ)} {close : σ → Built α} {a : α}
    (h : (Child.build start block close).result = .ok a) :
    ∃ s, start = .ok s ∧ (Action.runAll block s).failure = none ∧
      close (Action.runAll block s).state = .ok a := by
  unfold Child.build at h
  cases start with
  | error e => cases h
  | ok s =>
    cases hf : (Action.runAll block s).failure with
    | some e =>
      simp only [hf] at h
      cases h
    | none =>
      simp only [hf] at h
      exact ⟨s, rfl, hf, h⟩

theorem result_map {f : α → β} {c : Child α} {b : β} (h : (c.map f).result = .ok b) :
    ∃ a, c.result = .ok a ∧ f a = b := Outcome.map_eq_ok.1 h

/-- A property that the block keeps holds of what is closed. -/
theorem of_result_build {P : σ → Prop} {start : Built σ} {block : List (Action σ)}
    {close : σ → Built α} {a : α} (h : (Child.build start block close).result = .ok a)
    (hs : ∀ s, start = .ok s → P s) (hb : ∀ x ∈ block, Action.Keeps P x) :
    ∃ s, P s ∧ close s = .ok a := by
  obtain ⟨s, hstart, -, hclose⟩ := result_build h
  exact ⟨_, Action.Keeps.runAll hb (hs s hstart), hclose⟩

end Child

def SpreadStep.Distinct : SpreadStep → Prop
  | .look => True
  | .attempt step => step.Distinct
  | .directive shape => shape.Distinct

mutual
/-- The maps that a program mentions hold each of their keys once. -/
def FieldStep.Distinct : FieldStep → Prop
  | .look => True
  | .attempt step => step.Distinct
  | .directive shape => shape.Distinct
  | .label _ => True
  | .argument _ v => v.Distinct
  | .arguments args => Arguments.Distinct args
  | .select step => step.Distinct

def FieldStep.DistinctAll : List FieldStep → Prop
  | [] => True
  | step :: steps => step.Distinct ∧ FieldStep.DistinctAll steps

def FragmentStep.Distinct : FragmentStep → Prop
  | .look => True
  | .attempt step => step.Distinct
  | .directive shape => shape.Distinct
  | .select step => step.Distinct

def FragmentStep.DistinctAll : List FragmentStep → Prop
  | [] => True
  | step :: steps => step.Distinct ∧ FragmentStep.DistinctAll steps

def SelectionStep.Distinct : SelectionStep → Prop
  | .field _ => True
  | .fieldWith _ block => FieldStep.DistinctAll block
  | .spread _ => True
  | .spreadWith _ ds => ∀ d ∈ ds, d.Distinct
  | .inlineFragment _ block => FragmentStep.DistinctAll block
  | .add program => program.Distinct
  | .unknown => True

def SelectionProgram.Distinct : SelectionProgram → Prop
  | .field _ block => FieldStep.DistinctAll block
  | .spread _ block => ∀ step ∈ block, step.Distinct
  | .spreadWith _ ds => ∀ d ∈ ds, d.Distinct
  | .inlineFragment _ block => FragmentStep.DistinctAll block
end

theorem FieldStep.distinctAll_iff (steps : List FieldStep) :
    FieldStep.DistinctAll steps ↔ ∀ step ∈ steps, step.Distinct := by
  induction steps with
  | nil => simp [FieldStep.DistinctAll]
  | cons step steps ih => simp [FieldStep.DistinctAll, ih]

theorem FragmentStep.distinctAll_iff (steps : List FragmentStep) :
    FragmentStep.DistinctAll steps ↔ ∀ step ∈ steps, step.Distinct := by
  induction steps with
  | nil => simp [FragmentStep.DistinctAll]
  | cons step steps ih => simp [FragmentStep.DistinctAll, ih]

def OperationStep.Distinct : OperationStep → Prop
  | .look => True
  | .attempt step => step.Distinct
  | .directive shape => shape.Distinct
  | .directives shapes => ∀ s ∈ shapes, s.Distinct
  | .declare _ shape => shape.Distinct
  | .declareAll ds => ∀ d ∈ ds, d.2.Distinct
  | .select step => step.Distinct

def DefinitionProgram.Distinct : DefinitionProgram → Prop
  | .operation _ _ block => ∀ step ∈ block, step.Distinct
  | .fragment _ _ block => FragmentStep.DistinctAll block

def DocumentStep.Distinct : DocumentStep → Prop
  | .look => True
  | .attempt step => step.Distinct
  | .operation _ _ block => ∀ step ∈ block, step.Distinct
  | .fragment _ _ block => FragmentStep.DistinctAll block
  | .add program => program.Distinct
  | .unknown => True

def Program.Distinct : Program → Prop
  | .document block => ∀ step ∈ block, step.Distinct
  | .definition program => program.Distinct
  | .selection program => program.Distinct

open QueryDocument.Build.Action

/-- The step is assumed to be given maps that hold each key once, as all maps do. -/
theorem SpreadStep.keeps (step : SpreadStep) (h : step.Distinct) :
    Keeps FragmentSpread.WellFormed step.action := by
  induction step with
  | look => exact keeps_look
  | attempt step ih => exact (ih h).attempt
  | directive shape => exact keeps_directive FragmentSpread.admitsDirectives h

theorem spreadChild_wellFormed {name : String} {block : List SpreadStep}
    (hb : ∀ step ∈ block, step.Distinct) {s : FragmentSpread}
    (h : (spreadChild name block).result = .ok s) : s.WellFormed := by
  obtain ⟨s', hs, hc⟩ := Child.of_result_build h (fun _ => FragmentSpread.wellFormed_new) (by
    intro a ha
    obtain ⟨step, hm, rfl⟩ := List.mem_map.1 ha
    exact SpreadStep.keeps step (hb step hm))
  cases hc
  exact hs

theorem fieldChild_wellFormed {name : String} {block : List (Action Field)}
    (hb : ∀ a ∈ block, Keeps Field.WellFormed a) {f : Field}
    (h : (fieldChild name block).result = .ok f) : f.WellFormed := by
  obtain ⟨f', hf, hc⟩ := Child.of_result_build h (fun _ => Field.wellFormed_new) hb
  cases hc
  exact hf

theorem inlineFragmentChild_wellFormed {type : Option String}
    {block : List (Action InlineFragment)} (hb : ∀ a ∈ block, Keeps InlineFragment.Open a)
    {f : InlineFragment} (h : (inlineFragmentChild type block).result = .ok f) :
    f.WellFormed := by
  obtain ⟨f', hf, hc⟩ := Child.of_result_build h
    (fun _ hs => by cases hs; exact InlineFragment.open_new type) hb
  exact InlineFragment.wellFormed_close hf hc

mutual
/-- By recursion over the step and the blocks in it, since a child must be well-formed before it
is added. -/
theorem FieldStep.keeps : (step : FieldStep) → step.Distinct →
    Keeps Field.WellFormed step.action
  | .look, _ => keeps_look
  | .attempt step, h => (FieldStep.keeps step h).attempt
  | .directive _, h => keeps_directive Field.admitsDirectives h
  | .label _, _ => keeps_ofChange fun _ => Field.wellFormed_setLabel
  | .argument _ _, h => keeps_ofChange fun _ => Field.wellFormed_addArgument h
  | .arguments _, h => keeps_ofChange fun _ => Field.wellFormed_setArguments h
  | .select step, h => keeps_select Field.admitsSelections (SelectionStep.child_wellFormed step h)

theorem FieldStep.allKeep : (steps : List FieldStep) → FieldStep.DistinctAll steps →
    ∀ a ∈ FieldStep.actions steps, Keeps Field.WellFormed a
  | [], _ => by simp [FieldStep.actions]
  | step :: steps, h => List.forall_mem_cons.2
    ⟨FieldStep.keeps step h.1, FieldStep.allKeep steps h.2⟩

/-- While its block runs an inline fragment need not have a selection. -/
theorem FragmentStep.keepsOpen : (step : FragmentStep) → step.Distinct →
    Keeps InlineFragment.Open step.inPlace
  | .look, _ => keeps_look
  | .attempt step, h => (FragmentStep.keepsOpen step h).attempt
  | .directive _, h => keeps_directive InlineFragment.admitsDirectives h
  | .select step, h =>
    keeps_select InlineFragment.admitsSelections (SelectionStep.child_wellFormed step h)

theorem FragmentStep.allKeepOpen : (steps : List FragmentStep) → FragmentStep.DistinctAll steps →
    ∀ a ∈ FragmentStep.allInPlace steps, Keeps InlineFragment.Open a
  | [], _ => by simp [FragmentStep.allInPlace]
  | step :: steps, h => List.forall_mem_cons.2
    ⟨FragmentStep.keepsOpen step h.1, FragmentStep.allKeepOpen steps h.2⟩

theorem SelectionStep.child_wellFormed : (step : SelectionStep) → step.Distinct →
    ∀ x, step.child.result = .ok x → x.WellFormed
  | .field name, _, x, h => by
    obtain ⟨f, hf, rfl⟩ := Child.result_map h
    exact Field.wellFormed_new hf
  | .fieldWith name block, hd, x, h => by
    obtain ⟨f, hf, rfl⟩ := Child.result_map h
    exact fieldChild_wellFormed (FieldStep.allKeep block hd) hf
  | .spread name, _, x, h => by
    obtain ⟨s, hs, rfl⟩ := Child.result_map h
    exact FragmentSpread.wellFormed_new hs
  | .spreadWith name ds, hd, x, h => by
    obtain ⟨s, hs, rfl⟩ := Child.result_map h
    exact FragmentSpread.wellFormed_withDirectives hd hs
  | .inlineFragment type block, hd, x, h => by
    obtain ⟨f, hf, rfl⟩ := Child.result_map h
    exact inlineFragmentChild_wellFormed (FragmentStep.allKeepOpen block hd) hf
  | .add program, hd, x, h => SelectionProgram.child_wellFormed program hd x h
  | .unknown, _, x, h => by
    cases h
    trivial

theorem SelectionProgram.child_wellFormed : (program : SelectionProgram) → program.Distinct →
    ∀ x, program.child.result = .ok x → x.WellFormed
  | .field name block, hd, x, h => by
    obtain ⟨f, hf, rfl⟩ := Child.result_map h
    exact fieldChild_wellFormed (FieldStep.allKeep block hd) hf
  | .spread name block, hd, x, h => by
    obtain ⟨s, hs, rfl⟩ := Child.result_map h
    exact spreadChild_wellFormed hd hs
  | .spreadWith name ds, hd, x, h => by
    obtain ⟨s, hs, rfl⟩ := Child.result_map h
    exact FragmentSpread.wellFormed_withDirectives hd hs
  | .inlineFragment type block, hd, x, h => by
    obtain ⟨f, hf, rfl⟩ := Child.result_map h
    exact inlineFragmentChild_wellFormed (FragmentStep.allKeepOpen block hd) hf
end

theorem FragmentStep.keepsDefinition (step : FragmentStep) (h : step.Distinct) :
    Keeps FragmentDefinition.WellFormed step.defining := by
  match step with
  | .look => exact keeps_look
  | .attempt step => exact (FragmentStep.keepsDefinition step h).attempt
  | .directive shape => exact keeps_directive FragmentDefinition.admitsDirectives h
  | .select step =>
    exact keeps_select FragmentDefinition.admitsSelections (SelectionStep.child_wellFormed step h)

/-- No step of an operation, failed or not, leaves it malformed. -/
theorem OperationStep.keeps (step : OperationStep) (h : step.Distinct) :
    Keeps Operation.WellFormed step.action := by
  induction step with
  | look => exact keeps_look
  | attempt step ih => exact (ih h).attempt
  | directive shape => exact keeps_directive Operation.admitsDirectives h
  | directives shapes => exact keeps_ofChange fun _ => Operation.wellFormed_setDirectives h
  | declare name shape => exact keeps_ofChange fun _ => Operation.wellFormed_addVariable h
  | declareAll ds => exact keeps_ofChange fun _ => Operation.wellFormed_setVariables h
  | select step =>
    exact keeps_select Operation.admitsSelections (SelectionStep.child_wellFormed step h)

/-- An operation needs no check where its block ends. -/
theorem operationChild_wellFormed {kind : OperationKind} {name : Option String}
    {block : List OperationStep} (hb : ∀ step ∈ block, step.Distinct) {o : Operation}
    (h : (operationChild kind name block).result = .ok o) : o.WellFormed := by
  obtain ⟨o', ho, hc⟩ := Child.of_result_build h (fun _ => Operation.wellFormed_new) (by
    intro a ha
    obtain ⟨step, hm, rfl⟩ := List.mem_map.1 ha
    exact OperationStep.keeps step (hb step hm))
  cases hc
  exact ho

theorem fragmentChild_wellFormed {name type : String} {block : List FragmentStep}
    (hb : FragmentStep.DistinctAll block) {f : FragmentDefinition}
    (h : (fragmentChild name type block).result = .ok f) : f.WellFormed := by
  rw [FragmentStep.distinctAll_iff] at hb
  obtain ⟨f', hf, hc⟩ := Child.of_result_build h (fun _ => FragmentDefinition.wellFormed_new) (by
    intro a ha
    obtain ⟨step, hm, rfl⟩ := List.mem_map.1 ha
    exact FragmentStep.keepsDefinition step (hb step hm))
  cases hc
  exact hf

theorem DefinitionProgram.child_wellFormed (program : DefinitionProgram) (hp : program.Distinct)
    {d : Definition} (h : program.child.result = .ok d) : d.WellFormed := by
  cases program with
  | operation kind name block =>
    obtain ⟨o, ho, rfl⟩ := Child.result_map h
    exact operationChild_wellFormed hp ho
  | fragment name type block =>
    obtain ⟨f, hf, rfl⟩ := Child.result_map h
    exact fragmentChild_wellFormed hp hf

/-- A document is well-formed by its definitions alone. -/
theorem keeps_define {child : Child Definition} (h : ∀ d, child.result = .ok d → d.WellFormed) :
    Keeps Document.WellFormed (adopt Document.add child) :=
  keeps_adopt fun d _ hd hs => forall_mem_concat hs (h d hd)

theorem DocumentStep.keeps (step : DocumentStep) (h : step.Distinct) :
    Keeps Document.WellFormed step.action := by
  induction step with
  | look => exact keeps_look
  | attempt step ih => exact (ih h).attempt
  | operation kind name block =>
    exact keeps_define fun _ => DefinitionProgram.child_wellFormed (.operation kind name block) h
  | fragment name type block =>
    exact keeps_define fun _ => DefinitionProgram.child_wellFormed (.fragment name type block) h
  | add program => exact keeps_define fun _ => DefinitionProgram.child_wellFormed program h
  | unknown =>
    refine keeps_define fun d hd => ?_
    cases hd
    trivial

theorem documentChild_wellFormed {block : List DocumentStep}
    (hb : ∀ step ∈ block, step.Distinct) {d : Document}
    (h : (documentChild block).result = .ok d) : d.WellFormed := by
  obtain ⟨d', hd, hc⟩ := Child.of_result_build h
    (P := Document.WellFormed) (fun _ hs => by cases hs; intro x hx; cases hx) (by
      intro a ha
      obtain ⟨step, hm, rfl⟩ := List.mem_map.1 ha
      exact DocumentStep.keeps step (hb step hm))
  cases hc
  exact hd

/-- Whatever a program builds is well-formed. -/
theorem Program.child_wellFormed (program : Program) (hp : program.Distinct) {node : Node}
    (h : program.child.result = .ok node) : node.WellFormed := by
  match program with
  | .document block =>
    obtain ⟨d, hd, rfl⟩ := Child.result_map h
    exact documentChild_wellFormed hp hd
  | .definition (.operation kind name block) =>
    obtain ⟨o, ho, rfl⟩ := Child.result_map h
    exact operationChild_wellFormed hp ho
  | .definition (.fragment name type block) =>
    obtain ⟨f, hf, rfl⟩ := Child.result_map h
    exact fragmentChild_wellFormed hp hf
  | .selection (.field name block) =>
    obtain ⟨f, hf, rfl⟩ := Child.result_map h
    exact fieldChild_wellFormed (FieldStep.allKeep block hp) hf
  | .selection (.spread name block) =>
    obtain ⟨s, hs, rfl⟩ := Child.result_map h
    exact spreadChild_wellFormed hp hs
  | .selection (.spreadWith name ds) =>
    obtain ⟨s, hs, rfl⟩ := Child.result_map h
    exact FragmentSpread.wellFormed_withDirectives hp hs
  | .selection (.inlineFragment type block) =>
    obtain ⟨f, hf, rfl⟩ := Child.result_map h
    exact inlineFragmentChild_wellFormed (FragmentStep.allKeepOpen block hp) hf

end Build

end QueryDocument
