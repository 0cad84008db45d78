import QueryDocument.Proofs.Outcome
import QueryDocument.Render.Formatter

/-!
What keeps a tree from having a text. The offences of a tree are listed by walking it from left to
right: a variable's default and the arguments of its directives as constants, then what belongs to
the node itself, then what is nested in it. A tree has a text exactly if it has no offence, and
otherwise the first offence is the error.
-/
namespace QueryDocument

open Outcome (Reports)

namespace Value

mutual
/-- An empty variable name is told before the position that the variable stands in. -/
def offences (constant : Bool) : Value → List RenderError
  | .bool _ => []
  | .enum name => if name = "" then [.unsupportedValue .namelessEnum (.enum name)] else []
  | .float x => if x.isFinite then [] else [.unsupportedValue .notFinite (.float x)]
  | .int _ => []
  | .list items => offencesOfItems constant items
  | .null => []
  | .object fields => offencesOfFields constant fields
  | .string _ => []
  | .var name =>
    if name = "" then [.unsupportedValue .namelessVariable (.var name)]
    else if constant then [.constantContext name] else []

def offencesOfItems (constant : Bool) : List Value → List RenderError
  | [] => []
  | v :: vs => v.offences constant ++ offencesOfItems constant vs

def offencesOfFields (constant : Bool) : List (String × Value) → List RenderError
  | [] => []
  | (_, v) :: fs => v.offences constant ++ offencesOfFields constant fs
end

theorem offencesOfItems_eq_flatMap (constant : Bool) (vs : List Value) :
    offencesOfItems constant vs = vs.flatMap (offences constant) := by
  induction vs with
  | nil => rfl
  | cons v vs ih => rw [offencesOfItems, ih, List.flatMap_cons]

theorem offencesOfFields_eq_flatMap (constant : Bool) (fs : List (String × Value)) :
    offencesOfFields constant fs = fs.flatMap fun f => f.2.offences constant := by
  induction fs with
  | nil => rfl
  | cons f fs ih => rw [offencesOfFields, ih, List.flatMap_cons]

end Value

def Directive.offences (constant : Bool) (d : Directive) : List RenderError :=
  Value.offencesOfFields constant d.arguments

def Directive.offencesOfAll (constant : Bool) (ds : List Directive) : List RenderError :=
  ds.flatMap (Directive.offences constant)

def VariableDefinition.offencesOfDefault : Option Value → List RenderError
  | none => []
  | some v => v.offences true

/-- The default and the directives of a variable are constant positions. -/
def VariableDefinition.offences (d : VariableDefinition) : List RenderError :=
  offencesOfDefault d.default ++ Directive.offencesOfAll true d.directives

mutual
def Field.offences : Field → List RenderError
  | ⟨_, _, args, ds, ss⟩ =>
    Value.offencesOfFields false args ++ Directive.offencesOfAll false ds ++
      Selection.offencesOfAll ss

def InlineFragment.offences : InlineFragment → List RenderError
  | ⟨_, ds, ss⟩ => Directive.offencesOfAll false ds ++ Selection.offencesOfAll ss

def Selection.offences : Selection → List RenderError
  | .field f => f.offences
  | .spread s => Directive.offencesOfAll false s.directives
  | .inlineFragment f => f.offences
  | .unknown => [.unknownNode .selection]

def Selection.offencesOfAll : List Selection → List RenderError
  | [] => []
  | s :: ss => s.offences ++ Selection.offencesOfAll ss
end

def FragmentDefinition.offences (f : FragmentDefinition) : List RenderError :=
  Directive.offencesOfAll false f.directives ++ Selection.offencesOfAll f.selections

def Operation.offences (o : Operation) : List RenderError :=
  (o.declared.flatMap fun d => d.2.offences) ++ Directive.offencesOfAll false o.directives ++
    Selection.offencesOfAll o.selections

def Definition.offences : Definition → List RenderError
  | .fragment f => f.offences
  | .operation o => o.offences
  | .unknown => [.unknownNode .definition]

def Node.offences : Node → List RenderError
  | .document d => d.definitions.flatMap Definition.offences
  | .field f => f.offences
  | .fragmentDefinition f => f.offences
  | .fragmentSpread s => Directive.offencesOfAll false s.directives
  | .inlineFragment f => f.offences
  | .operation o => o.offences

mutual
/-- A value has a text if it has no offence, and otherwise its first one is the error, although
the rendering stops there. -/
theorem Value.render_reports (constant : Bool) :
    (v : Value) → Reports (v.offences constant) (v.render constant)
  | .bool _ => .ok _
  | .enum name => by
    rw [Value.offences, Value.render]
    by_cases h : name = ""
    · subst h
      exact .error _
    · rw [if_neg h, if_neg (by simpa using h)]
      exact .ok _
  | .float x => by
    rw [Value.offences, Value.render]
    by_cases h : x.isFinite
    · rw [if_pos h, if_pos h]
      exact .ok _
    · rw [if_neg h, if_neg h]
      exact .error _
  | .int _ => .ok _
  | .list items => by
    rw [Value.offences, Value.render]
    exact (Value.renderItems_reports constant items).pure
  | .null => .ok _
  | .object fields => by
    rw [Value.offences, Value.render]
    exact (Value.renderFields_reports constant fields).pure
  | .string _ => .ok _
  | .var name => by
    rw [Value.offences, Value.render]
    by_cases h : name = ""
    · subst h
      exact .error _
    · have hn : ¬ name.isEmpty = true := by simpa using h
      rw [if_neg h, if_neg hn]
      cases constant with
      | false => exact .ok _
      | true => exact .error _

theorem Value.renderItems_reports (constant : Bool) :
    (vs : List Value) → Reports (offencesOfItems constant vs) (renderItems constant vs)
  | [] => .ok _
  | v :: vs => by
    rw [Value.offencesOfItems, Value.renderItems]
    exact (Value.render_reports constant v).bind fun _ =>
      (Value.renderItems_reports constant vs).pure

/-- The keys of an object cannot fail. -/
theorem Value.renderFields_reports (constant : Bool) :
    (fs : List (String × Value)) →
      Reports (offencesOfFields constant fs) (renderFields constant fs)
  | [] => .ok _
  | (k, v) :: fs => by
    rw [Value.offencesOfFields, Value.renderFields]
    exact (Value.render_reports constant v).bind fun _ =>
      (Value.renderFields_reports constant fs).pure
end

theorem renderArguments_reports (constant : Bool) (args : Arguments) :
    Reports (Value.offencesOfFields constant args) (renderArguments constant args) := by
  cases args with
  | nil => exact .ok _
  | cons a args => exact (Value.renderFields_reports constant (a :: args)).pure

theorem Directive.render_reports (constant : Bool) (d : Directive) :
    Reports (d.offences constant) (d.render constant) :=
  (renderArguments_reports constant d.arguments).pure

theorem renderDirectives_reports (constant : Bool) (ds : List Directive) :
    Reports (Directive.offencesOfAll constant ds) (renderDirectives constant ds) := by
  cases ds with
  | nil => exact .ok _
  | cons d ds => exact (Reports.mapM (Directive.render_reports constant) (d :: ds)).pure

/-- A default is in a constant position wherever the variable stands. -/
theorem renderDefault_reports (default : Option Value) :
    Reports (VariableDefinition.offencesOfDefault default) (renderDefault default) := by
  cases default with
  | none => exact .ok _
  | some v => exact (Value.render_reports true v).pure

/-- The type cannot fail, so the default is the first to do so. -/
theorem VariableDefinition.render_reports (name : String) (d : VariableDefinition) :
    Reports d.offences (d.render name) :=
  (renderDefault_reports d.default).bind fun _ => (renderDirectives_reports true d.directives).pure

/-- The variables are tried in the order of their declaration. -/
theorem renderVariables_reports (ds : Keyed VariableDefinition) :
    Reports (ds.flatMap fun d => d.2.offences) (renderVariables ds) := by
  cases ds with
  | nil => exact .ok _
  | cons d ds =>
    exact (Reports.mapM (fun d => VariableDefinition.render_reports d.1 d.2) (d :: ds)).pure

theorem FragmentSpread.lines_reports (depth : Nat) (s : FragmentSpread) :
    Reports (Directive.offencesOfAll false s.directives) (s.lines depth) :=
  (renderDirectives_reports false s.directives).pure.pure

theorem Field.signature_reports (f : Field) :
    Reports (Value.offencesOfFields false f.arguments ++
      Directive.offencesOfAll false f.directives) f.signature :=
  (renderArguments_reports false f.arguments).bind fun _ =>
    (renderDirectives_reports false f.directives).pure

-- The depth of a line has no part in its offences, so it may grow on the way down.
mutual
/-- The arguments and the directives of a field are tried before its selections. -/
theorem Field.lines_reports (depth : Nat) : (f : Field) → Reports f.offences (f.lines depth)
  | ⟨name, label, args, ds, ss⟩ => by
    rw [Field.offences, Field.lines]
    exact (Field.signature_reports ⟨name, label, args, ds, ss⟩).bind fun _ =>
      (Selection.linesOfAll_reports (depth + 1) ss).pure

theorem InlineFragment.lines_reports (depth : Nat) :
    (f : InlineFragment) → Reports f.offences (f.lines depth)
  | ⟨type, ds, ss⟩ => by
    have hs : Reports (Directive.offencesOfAll false ds)
        (InlineFragment.signature ⟨type, ds, ss⟩) := (renderDirectives_reports false ds).pure
    rw [InlineFragment.offences, InlineFragment.lines]
    exact hs.bind fun _ => (Selection.linesOfAll_reports (depth + 1) ss).pure

/-- An unknown selection is an offence itself. -/
theorem Selection.lines_reports (depth : Nat) :
    (s : Selection) → Reports s.offences (s.lines depth)
  | .field f => Field.lines_reports depth f
  | .spread s => FragmentSpread.lines_reports depth s
  | .inlineFragment f => InlineFragment.lines_reports depth f
  | .unknown => .error _

theorem Selection.linesOfAll_reports (depth : Nat) :
    (ss : List Selection) → Reports (Selection.offencesOfAll ss) (Selection.linesOfAll depth ss)
  | [] => .ok _
  | s :: ss => by
    rw [Selection.offencesOfAll, Selection.linesOfAll]
    exact (Selection.lines_reports depth s).bind fun _ =>
      (Selection.linesOfAll_reports depth ss).pure
end

theorem FragmentDefinition.lines_reports (depth : Nat) (f : FragmentDefinition) :
    Reports f.offences (f.lines depth) := by
  have hs : Reports (Directive.offencesOfAll false f.directives) f.signature :=
    (renderDirectives_reports false f.directives).pure
  exact hs.bind fun _ => (Selection.linesOfAll_reports (depth + 1) f.selections).pure

/-- The variables of an operation are tried before its directives. -/
theorem Operation.signature_reports (o : Operation) :
    Reports ((o.declared.flatMap fun d => d.2.offences) ++
      Directive.offencesOfAll false o.directives) o.signature := by
  refine (renderVariables_reports o.declared).bind fun declared => ?_
  have hd := (renderDirectives_reports false o.directives)
  cases h : renderDirectives false o.directives with
  | error e => rwa [h] at hd
  | ok directives =>
    rw [h] at hd
    -- Both branches of the signature succeed.
    change Reports _ (if _ then _ else _)
    split
    · exact hd
    · exact hd

theorem Operation.lines_reports (depth : Nat) (o : Operation) :
    Reports o.offences (o.lines depth) :=
  (Operation.signature_reports o).bind fun _ =>
    (Selection.linesOfAll_reports (depth + 1) o.selections).pure

theorem Definition.lines_reports (depth : Nat) (d : Definition) :
    Reports d.offences (d.lines depth) := by
  cases d with
  | fragment f => exact FragmentDefinition.lines_reports depth f
  | operation o => exact Operation.lines_reports depth o
  | unknown => exact .error _

/-- What the definitions of a document report is told in their order. -/
theorem Node.paragraphs_reports (node : Node) : Reports node.offences node.paragraphs := by
  cases node with
  | document d => exact Reports.mapM (Definition.lines_reports 0) d.definitions
  | field f => exact (Field.lines_reports 0 f).pure
  | fragmentDefinition f => exact (FragmentDefinition.lines_reports 0 f).pure
  | fragmentSpread s => exact (FragmentSpread.lines_reports 0 s).pure
  | inlineFragment f => exact (InlineFragment.lines_reports 0 f).pure
  | operation o => exact (Operation.lines_reports 0 o).pure

/-- Indenting and joining the lines cannot fail. -/
theorem Formatter.format_reports (f : Formatter) (level : Nat) (node : Node) :
    Reports node.offences (f.format level node) :=
  node.paragraphs_reports.pure

/-- A node has a text exactly if it has no offence, and its first offence is otherwise the error,
in every layout and at every level. -/
theorem Formatter.format_outcome (f : Formatter) (level : Nat) (node : Node) :
    ((∃ text, f.format level node = .ok text) ↔ node.offences = []) ∧
      ∀ e, f.format level node = .error e ↔ node.offences.head? = some e :=
  ⟨(f.format_reports level node).ok_iff, (f.format_reports level node).error_iff⟩

end QueryDocument
