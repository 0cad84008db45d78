import QueryDocument.Build.Node
import QueryDocument.Proofs.Outcome

/-!
What the changes to a node do. Each finds out what to write, or why nothing may be written, without
a look at the node, and only then writes; so a change that fails has left its node as it was. A
series of changes stops at the first that fails and leaves what those before it have written.
-/
namespace QueryDocument

namespace Change

variable {σ α β γ : Type} {c : Change σ Unit} {s s' : σ}

theorem left_of_ok (h : c s = .ok () s') : c.left s = s' := by rw [left, h]

theorem left_of_error {e : BuildError} (h : c s = .error e s') : c.left s = s' := by rw [left, h]

/-- What is made is what is left, if nothing failed. -/
theorem made_eq_ok_iff : c.made s = .ok s' ↔ c s = .ok () s' := by
  unfold made
  cases c s <;> simp

/-- A property of the node that is left is one of the node that is made. -/
theorem of_made {P : σ → Prop} (hs : P (c.left s)) (h : c.made s = .ok s') : P s' := by
  rwa [left_of_ok (made_eq_ok_iff.1 h)] at hs

theorem failure_of_ok (h : c s = .ok () s') : c.failure s = none := by rw [failure, h]

theorem failure_of_error {e : BuildError} (h : c s = .error e s') : c.failure s = some e := by
  rw [failure, h]

/-- The change is to write by `put` what `x` finds out, and leaves the node alone if `x` fails. -/
def Puts (c : Change σ Unit) (x : Built β) (put : β → σ → σ) : Prop :=
  ∀ s, c s = match x with
    | .ok y => .ok () (put y s)
    | .error e => .error e s

/-- Binding passes no state on to what is found out, so a failure there comes before anything is
written. -/
theorem puts_bind (x : Built β) (put : β → σ → σ) :
    Puts (do let y ← x; modify (put y)) x put := fun s => by
  cases x <;> rfl

theorem puts_ite (p : Prop) [Decidable p] (e : BuildError) (put : σ → σ) :
    Puts (if p then throw e else modify put) (if p then .error e else .ok ()) fun _ => put :=
  fun s => by split <;> rfl

namespace Puts

variable {x : Built β} {put : β → σ → σ}

theorem of_ok {y : β} (h : c.Puts x put) (hx : x = .ok y) (s : σ) : c s = .ok () (put y s) := by
  rw [h s, hx]

theorem of_error {e : BuildError} (h : c.Puts x put) (hx : x = .error e) (s : σ) :
    c s = .error e s := by
  rw [h s, hx]

theorem left_of_ok {y : β} (h : c.Puts x put) (hx : x = .ok y) (s : σ) : c.left s = put y s :=
  Change.left_of_ok (h.of_ok hx s)

/-- If nothing is found out then nothing is written. -/
theorem left_of_error {e : BuildError} (h : c.Puts x put) (hx : x = .error e) (s : σ) :
    c.left s = s :=
  Change.left_of_error (h.of_error hx s)

theorem failure_of_ok {y : β} (h : c.Puts x put) (hx : x = .ok y) (s : σ) : c.failure s = none :=
  Change.failure_of_ok (h.of_ok hx s)

theorem failure_of_error {e : BuildError} (h : c.Puts x put) (hx : x = .error e) (s : σ) :
    c.failure s = some e :=
  Change.failure_of_error (h.of_error hx s)

theorem map {f : β → γ} {put' : γ → σ → σ} (h : c.Puts x put)
    (hput : ∀ y s, put y s = put' (f y) s) : c.Puts (f <$> x) put' := fun s => by
  rw [h s]
  cases x with
  | error e => rfl
  | ok y => exact congrArg (EStateM.Result.ok ()) (hput y s)

/-- Without a failure the node is the one with what was found out written into it. -/
theorem made_eq (h : c.Puts x put) (s : σ) : c.made s = (fun y => put y s) <$> x := by
  rw [made, h s]
  cases x <;> rfl

/-- A change that fails has written nothing. -/
theorem left_of_failure (h : c.Puts x put) {e : BuildError} (hf : c.failure s = some e) :
    c.left s = s := by
  cases hx : x with
  | error e => exact h.left_of_error hx s
  | ok y =>
    rw [h.failure_of_ok hx] at hf
    cases hf

theorem exists_of_success (h : c.Puts x put) (hf : c.failure s = none) :
    ∃ y, x = .ok y ∧ c.left s = put y s := by
  cases hx : x with
  | ok y => exact ⟨y, rfl, h.left_of_ok hx s⟩
  | error e =>
    rw [h.failure_of_error hx] at hf
    cases hf

/-- What holds of a node after all that may be written holds of it if it held before. -/
theorem left_of_put {P : σ → Prop} (h : c.Puts x put) (hput : ∀ y, x = .ok y → P (put y s))
    (hs : P s) : P (c.left s) := by
  cases hx : x with
  | ok y =>
    rw [h.left_of_ok hx]
    exact hput y hx
  | error e =>
    rw [h.left_of_error hx]
    exact hs

/-- What the change does not write to is as it was. -/
theorem view_left {view : σ → α} (h : c.Puts x put) (hput : ∀ y s, view (put y s) = view s)
    (s : σ) : view (c.left s) = view s :=
  h.left_of_put (P := fun s' => view s' = view s) (fun y _ => hput y s) rfl

end Puts

/-- The second change is not tried after a failure, and does not undo the first one. -/
theorem left_andThen (c d : Change σ Unit) (s : σ) :
    (c >>= fun _ => d).left s = if c.failure s = none then d.left (c.left s) else c.left s := by
  cases hc : c s with
  | ok _ s' => simp only [left, failure, bind, EStateM.bind, hc, if_true]
  | error e s' => simp only [left, failure, bind, EStateM.bind, hc, reduceCtorEq, if_false]

theorem failure_andThen (c d : Change σ Unit) (s : σ) :
    (c >>= fun _ => d).failure s = (c.failure s).or (d.failure (c.left s)) := by
  cases hc : c s with
  | ok _ s' => simp only [left, failure, bind, EStateM.bind, hc, Option.none_or]
  | error e s' => simp only [failure, bind, EStateM.bind, hc, Option.some_or]

theorem made_andThen (c d : Change σ Unit) (s : σ) :
    (c >>= fun _ => d).made s = c.made s >>= d.made := by
  cases hc : c s with
  | ok _ s' => simp only [made, bind, EStateM.bind, Except.bind, hc]
  | error e s' => simp only [made, bind, EStateM.bind, Except.bind, hc]

theorem made_forM (f : α → Change σ Unit) (xs : List α) (s : σ) :
    made (forM xs f) s = xs.foldlM (fun s x => (f x).made s) s := by
  induction xs generalizing s with
  | nil => rfl
  | cons x xs ih =>
    rw [List.forM_cons, made_andThen, List.foldlM_cons]
    exact congrArg ((f x).made s >>= ·) (funext ih)

theorem left_forM_singleton (f : α → Change σ Unit) (x : α) (s : σ) :
    left (forM [x] f) s = (f x).left s := by
  rw [List.forM_cons, left_andThen]
  split <;> rfl

theorem failure_forM_singleton (f : α → Change σ Unit) (x : α) (s : σ) :
    failure (forM [x] f) s = (f x).failure s := by
  rw [List.forM_cons, failure_andThen]
  exact Option.or_none

/-- What every change of a series keeps, the series keeps, wherever it stops. -/
theorem left_forM {P : σ → Prop} {f : α → Change σ Unit} {xs : List α}
    (h : ∀ x ∈ xs, ∀ s, P s → P ((f x).left s)) (hs : P s) : P (left (forM xs f) s) := by
  induction xs generalizing s with
  | nil => exact hs
  | cons x xs ih =>
    rw [List.forall_mem_cons] at h
    rw [List.forM_cons, left_andThen]
    split
    · exact ih h.2 (h.1 s hs)
    · exact h.1 s hs

/-- Where each change fails as `faults` tell, whatever the node, the series has their first
failure. -/
theorem failure_forM {f : α → Change σ Unit} {faults : α → List BuildError}
    (h : ∀ x s, (f x).failure s = (faults x).head?) (xs : List α) (s : σ) :
    failure (forM xs f) s = (xs.flatMap faults).head? := by
  induction xs generalizing s with
  | nil => rfl
  | cons x xs ih =>
    rw [List.forM_cons, failure_andThen, h, ih, List.flatMap_cons, List.head?_append]

end Change

open Change

/-- The shape is read before the directive is appended. -/
theorem addDirective_puts {σ : Type} [Annotated σ] (shape : DirectiveShape) :
    (addDirective shape : Change σ Unit).Puts (Directive.ofShape shape) Annotated.annotate :=
  puts_bind _ _

namespace Field

theorem setLabel_puts (label : String) :
    (setLabel label).Puts (if label.isEmpty then .error (.missingName .fieldAlias) else .ok ())
      fun _ f => { f with label := some label } :=
  puts_ite _ _ _

theorem addArgument_puts (name : String) (v : Value) :
    (addArgument name v).Puts (if name.isEmpty then .error (.missingName .argument) else .ok ())
      fun _ f => { f with arguments := Keyed.insert name v f.arguments } :=
  puts_ite _ _ _

/-- All arguments are checked before the first of them replaces anything. -/
theorem setArguments_puts (args : Arguments) :
    (setArguments args).Puts (checkArguments args) fun _ f => { f with arguments := args } :=
  puts_bind _ _

end Field

namespace Operation

/-- Of the name one dollar sign is dropped, and something must be left. -/
theorem variableKey_eq (name : String) :
    variableKey name = if bareName name = "" then .error (.missingName .variableName)
      else .ok (bareName name) := by
  simp only [variableKey, String.isEmpty_iff]

/-- The definition that is declared for a variable, or why there is none. -/
def declaration (name : String) (shape : VariableShape) : Built VariableDefinition :=
  if bareName name = "" then .error (.missingName .variableName)
  else (VariableDefinition.ofShape shape).mapError (typeFault (bareName name))

def insertVariable (name : String) (d : VariableDefinition) (o : Operation) : Operation :=
  { o with declared := Keyed.insert (bareName name) d o.declared }

/-- Only the name can be refused, for the definition was checked when it was made. -/
theorem declare_puts (name : String) (d : VariableDefinition) :
    (declare name d).Puts (if bareName name = "" then .error (.missingName .variableName)
      else .ok d) (insertVariable name) := fun o => by
  rw [declare, variableKey_eq]
  split <;> rfl

/-- The name is checked first, then the type and the rest of the shape, and only then is the
variable declared. -/
theorem addVariable_puts (name : String) (shape : VariableShape) :
    (addVariable name shape).Puts (declaration name shape) (insertVariable name) := fun o => by
  rw [addVariable, variableKey_eq, declaration]
  split
  · rfl
  · exact puts_bind _ (insertVariable name) o

/-- One malformed shape keeps all directives as they were. -/
theorem setDirectives_puts (shapes : List DirectiveShape) :
    (setDirectives shapes).Puts (Directive.ofShapes shapes)
      fun ds o => { o with directives := ds } :=
  puts_bind _ _

theorem addVariables_cons (d : String × VariableShape) (ds : List (String × VariableShape)) :
    addVariables (d :: ds) = addVariable d.1 d.2 >>= fun _ => addVariables ds :=
  List.forM_cons

theorem failure_setVariables (ds : List (String × VariableShape)) (o : Operation) :
    (setVariables ds).failure o = (addVariables ds).failure { o with declared := [] } := rfl

/-- Whatever happens to the new variables, the old ones are gone. -/
theorem left_setVariables (ds : List (String × VariableShape)) (o : Operation) :
    (setVariables ds).left o = (addVariables ds).left { o with declared := [] } := rfl

/-- Whether it fails or not, it has written to nothing but the variables. -/
theorem exists_left_setVariables (ds : List (String × VariableShape)) (o : Operation) :
    ∃ declared, (setVariables ds).left o = { o with declared } := by
  let P (o' : Operation) : Prop := ∃ declared, o' = { o with declared }
  refine left_forM (P := P) (fun d _ o' ho => ?_) ⟨[], rfl⟩
  refine (addVariable_puts d.1 d.2).left_of_put (P := P) (fun d' _ => ?_) ho
  obtain ⟨declared, rfl⟩ := ho
  exact ⟨_, rfl⟩

end Operation
end QueryDocument
