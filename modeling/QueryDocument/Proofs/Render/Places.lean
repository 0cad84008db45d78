import QueryDocument.Proofs.Json.RoundTrip
import QueryDocument.Proofs.Offence

/-!
Where a tree needs a name or a type. Most of these texts are checked when a node is built or read,
those of enum values and variable references when it is rendered; together this leaves none of them
empty in a tree that has a text. Nothing checks the keys of object values.
-/
namespace QueryDocument

open Build

/-- What a text in a tree is there for. -/
inductive NamePlace where
  | argument
  | directive
  | enum
  | field
  | fragment
  | key
  | label
  | operation
  | type
  | typeCondition
  | variable
  deriving DecidableEq

namespace Value

mutual
def places : Value → List (NamePlace × String)
  | .enum name => [(.enum, name)]
  | .var name => [(.variable, name)]
  | .list items => placesOfItems items
  | .object fields => placesOfFields .key fields
  | .bool _ | .float _ | .int _ | .null | .string _ => []

def placesOfItems : List Value → List (NamePlace × String)
  | [] => []
  | v :: vs => v.places ++ placesOfItems vs

/-- The fields of an object and the arguments of a field or a directive. -/
def placesOfFields (p : NamePlace) : List (String × Value) → List (NamePlace × String)
  | [] => []
  | (k, v) :: fs => (p, k) :: (v.places ++ placesOfFields p fs)
end

end Value

/-- The name of a directive begins behind its at signs. -/
def Directive.places (d : Directive) : List (NamePlace × String) :=
  (.directive, String.ofList (d.name.toList.dropWhile (· == '@'))) ::
    Value.placesOfFields .argument d.arguments

def VariableDefinition.places (name : String) (d : VariableDefinition) :
    List (NamePlace × String) :=
  (.variable, name) :: (.type, d.type) ::
    (d.default.toList.flatMap Value.places ++ d.directives.flatMap Directive.places)

def FragmentSpread.places (s : FragmentSpread) : List (NamePlace × String) :=
  (.fragment, s.name) :: s.directives.flatMap Directive.places

mutual
def Field.places : Field → List (NamePlace × String)
  | ⟨name, label, args, ds, ss⟩ =>
    label.toList.map (NamePlace.label, ·) ++ (.field, name) ::
      (Value.placesOfFields .argument args ++ ds.flatMap Directive.places ++
        Selection.placesOfAll ss)

def InlineFragment.places : InlineFragment → List (NamePlace × String)
  | ⟨type, ds, ss⟩ =>
    type.toList.map (NamePlace.typeCondition, ·) ++ ds.flatMap Directive.places ++
      Selection.placesOfAll ss

def Selection.places : Selection → List (NamePlace × String)
  | .field f => f.places
  | .spread s => s.places
  | .inlineFragment f => f.places
  | .unknown => []

def Selection.placesOfAll : List Selection → List (NamePlace × String)
  | [] => []
  | s :: ss => s.places ++ Selection.placesOfAll ss
end

def FragmentDefinition.places (f : FragmentDefinition) : List (NamePlace × String) :=
  (.fragment, f.name) :: (.typeCondition, f.typeCondition) ::
    (f.directives.flatMap Directive.places ++ Selection.placesOfAll f.selections)

def Operation.places (o : Operation) : List (NamePlace × String) :=
  o.name.toList.map (NamePlace.operation, ·) ++
    (o.declared.flatMap fun d => d.2.places d.1) ++ o.directives.flatMap Directive.places ++
      Selection.placesOfAll o.selections

def Definition.places : Definition → List (NamePlace × String)
  | .fragment f => f.places
  | .operation o => o.places
  | .unknown => []

/-- All names and types of a node, in the order in which they are written. -/
def Node.places : Node → List (NamePlace × String)
  | .document d => d.definitions.flatMap Definition.places
  | .field f => f.places
  | .fragmentDefinition f => f.places
  | .fragmentSpread s => s.places
  | .inlineFragment f => f.places
  | .operation o => o.places

/-- No text is empty, unless it is the key of an object value. -/
def Present (ps : List (NamePlace × String)) : Prop := ∀ p ∈ ps, p.1 ≠ .key → p.2 ≠ ""

namespace Present

variable {α : Type} {ps qs : List (NamePlace × String)}

theorem nil : Present [] := nofun

theorem cons {p : NamePlace} {text : String} (h : p ≠ .key → text ≠ "") (hs : Present ps) :
    Present ((p, text) :: ps) := List.forall_mem_cons.2 ⟨h, hs⟩

theorem append (hp : Present ps) (hq : Present qs) : Present (ps ++ qs) :=
  List.forall_mem_append.2 ⟨hp, hq⟩

theorem flatMap {f : α → List (NamePlace × String)} {xs : List α} (h : ∀ x ∈ xs, Present (f x)) :
    Present (xs.flatMap f) := by
  intro p hp
  obtain ⟨x, hx, hp⟩ := List.mem_flatMap.1 hp
  exact h x hx p hp

/-- A part that is left out has no name. -/
theorem optional {text : Option String} (h : text ≠ some "") (p : NamePlace) :
    Present (text.toList.map (p, ·)) := by
  cases text with
  | none => exact nil
  | some t => exact cons (fun _ ht => h (congrArg some ht)) nil

end Present

mutual
/-- A value without an offence names its enum values and variables, however deep they stand. The
keys of its objects are not asked about. -/
theorem Value.present {c : Bool} : (v : Value) → v.offences c = [] → Present v.places
  | .enum name, h => by
    rw [offences] at h
    refine .cons (fun _ hn => ?_) .nil
    rw [if_pos hn] at h
    cases h
  | .var name, h => by
    rw [offences] at h
    refine .cons (fun _ hn => ?_) .nil
    rw [if_pos hn] at h
    cases h
  | .list items, h => Value.presentItems items h
  | .object fields, h => Value.presentFields fields h (.inl rfl)
  | .bool _, _ | .float _, _ | .int _, _ | .null, _ | .string _, _ => .nil

theorem Value.presentItems {c : Bool} :
    (vs : List Value) → offencesOfItems c vs = [] → Present (placesOfItems vs)
  | [], _ => .nil
  | v :: vs, h => by
    obtain ⟨hv, hvs⟩ := List.append_eq_nil_iff.1 h
    exact .append (Value.present v hv) (Value.presentItems vs hvs)

/-- Keys may be empty; the names of arguments must not be. -/
theorem Value.presentFields {c : Bool} {p : NamePlace} :
    (fs : List (String × Value)) → offencesOfFields c fs = [] →
      (p = .key ∨ ∀ k ∈ Keyed.keys fs, k ≠ "") → Present (placesOfFields p fs)
  | [], _, _ => .nil
  | (k, v) :: fs, h, hk => by
    obtain ⟨hv, hfs⟩ := List.append_eq_nil_iff.1 h
    refine .cons (fun hp => ?_) (.append (Value.present v hv) (Value.presentFields fs hfs ?_))
    · exact hk.resolve_left hp k List.mem_cons_self
    · exact hk.imp_right fun hk k' hk' => hk k' (List.mem_cons_of_mem k hk')
end

/-- The names of the arguments are checked when they are taken, their values when they are
rendered. -/
theorem Arguments.present {c : Bool} {args : Arguments} (hw : args.WellFormed)
    (h : Value.offencesOfFields c args = []) : Present (Value.placesOfFields .argument args) :=
  Value.presentFields args h (.inr hw.named)

theorem Directive.present {c : Bool} {d : Directive} (hw : d.WellFormed)
    (h : d.offences c = []) : Present d.places := by
  refine .cons (fun _ hn => hw.named ?_) (Arguments.present hw.arguments h)
  have hchars := congrArg String.toList hn
  rwa [String.toList_ofList, String.toList_empty] at hchars

theorem Directive.presentAll {c : Bool} {ds : List Directive} (hw : ∀ d ∈ ds, d.WellFormed)
    (h : Directive.offencesOfAll c ds = []) : Present (ds.flatMap Directive.places) :=
  .flatMap fun d hd => Directive.present (hw d hd) (List.flatMap_eq_nil_iff.1 h d hd)

theorem VariableDefinition.present {name : String} {d : VariableDefinition} (hn : name ≠ "")
    (hw : d.WellFormed) (h : d.offences = []) : Present (d.places name) := by
  obtain ⟨hdefault, hds⟩ := List.append_eq_nil_iff.1 h
  refine .cons (fun _ => hn) (.cons (fun _ => hw.typed) (.append (.flatMap ?_) ?_))
  · intro v hv
    rw [Option.mem_toList] at hv
    rw [hv] at hdefault
    exact Value.present v hdefault
  · exact Directive.presentAll hw.directives hds

theorem FragmentSpread.present {s : FragmentSpread} (hw : s.WellFormed)
    (h : Directive.offencesOfAll false s.directives = []) : Present s.places :=
  .cons (fun _ => hw.named) (Directive.presentAll hw.directives h)

mutual
/-- A field has a name, and its label is a name or left out. So it is for every field under
it. -/
theorem Field.present : (f : Field) → f.WellFormed → f.offences = [] → Present f.places
  | ⟨name, label, args, ds, ss⟩, hw, h => by
    rw [Field.WellFormed] at hw
    rw [Field.offences, List.append_eq_nil_iff, List.append_eq_nil_iff] at h
    obtain ⟨hname, hlabel, hargs, hds, hss⟩ := hw
    rw [Field.places]
    refine .append (.optional hlabel .label) (.cons (fun _ => hname) (.append (.append ?_ ?_) ?_))
    · exact Arguments.present hargs h.1.1
    · exact Directive.presentAll hds h.1.2
    · exact Selection.presentAll ss hss h.2

theorem InlineFragment.present :
    (f : InlineFragment) → f.WellFormed → f.offences = [] → Present f.places
  | ⟨type, ds, ss⟩, hw, h => by
    rw [InlineFragment.WellFormed] at hw
    rw [InlineFragment.offences, List.append_eq_nil_iff] at h
    obtain ⟨htype, hds, -, hss⟩ := hw
    rw [InlineFragment.places]
    refine .append (.append (.optional htype .typeCondition) ?_) ?_
    · exact Directive.presentAll hds h.1
    · exact Selection.presentAll ss hss h.2

/-- An unknown selection has no names, and it could not be rendered. -/
theorem Selection.present : (s : Selection) → s.WellFormed → s.offences = [] → Present s.places
  | .field f, hw, h => Field.present f hw h
  | .spread _, hw, h => FragmentSpread.present hw h
  | .inlineFragment f, hw, h => InlineFragment.present f hw h
  | .unknown, _, _ => .nil

theorem Selection.presentAll : (ss : List Selection) → Selection.WellFormedAll ss →
    Selection.offencesOfAll ss = [] → Present (Selection.placesOfAll ss)
  | [], _, _ => .nil
  | s :: ss, hw, h => by
    obtain ⟨hs, hss⟩ := List.append_eq_nil_iff.1 h
    exact .append (Selection.present s hw.1 hs) (Selection.presentAll ss hw.2 hss)
end

theorem FragmentDefinition.present {f : FragmentDefinition} (hw : f.WellFormed)
    (h : f.offences = []) : Present f.places := by
  obtain ⟨hds, hss⟩ := List.append_eq_nil_iff.1 h
  refine .cons (fun _ => hw.named) (.cons (fun _ => hw.typed) (.append ?_ ?_))
  · exact Directive.presentAll hw.directives hds
  · exact Selection.presentAll f.selections ((Selection.wellFormedAll_iff _).2 hw.selections) hss

/-- An operation may do without a name, but not with an empty one. -/
theorem Operation.present {o : Operation} (hw : o.WellFormed) (h : o.offences = []) :
    Present o.places := by
  rw [Operation.offences, List.append_eq_nil_iff, List.append_eq_nil_iff] at h
  refine .append (.append (.append (.optional hw.named .operation) (.flatMap ?_)) ?_) ?_
  · intro d hd
    exact VariableDefinition.present (hw.variablesNamed d.1 (List.mem_map_of_mem hd))
      (hw.declarations d hd) (List.flatMap_eq_nil_iff.1 h.1.1 d hd)
  · exact Directive.presentAll hw.directives h.1.2
  · exact Selection.presentAll o.selections ((Selection.wellFormedAll_iff _).2 hw.selections) h.2

theorem Definition.present {d : Definition} (hw : d.WellFormed) (h : d.offences = []) :
    Present d.places := by
  cases d with
  | fragment f => exact FragmentDefinition.present hw h
  | operation o => exact Operation.present hw h
  | unknown => exact .nil

/-- A well-formed node without an offence has every name that it needs. -/
theorem Node.present {n : Node} (hw : n.WellFormed) (h : n.offences = []) : Present n.places := by
  cases n with
  | document d =>
    exact .flatMap fun x hx => Definition.present (hw x hx) (List.flatMap_eq_nil_iff.1 h x hx)
  | field f => exact Field.present f hw h
  | fragmentDefinition f => exact FragmentDefinition.present hw h
  | fragmentSpread s => exact FragmentSpread.present hw h
  | inlineFragment f => exact InlineFragment.present f hw h
  | operation o => exact Operation.present hw h

/-- In what is built or read and has a text no name and no type is missing, in whatever place at
whatever depth, but for the keys of object values. -/
theorem Formatter.names_of_format {n : Node} (hn : (Subject.node n).Obtained) {f : Formatter}
    {level : Nat} {text : String} (h : f.format level n = .ok text) :
    (∀ p ∈ n.places, p.2 = "" → p.1 = .key) ∧
      ((∀ p ∈ n.places, p.2 ≠ "") ↔ ∀ p ∈ n.places, p.1 = .key → p.2 ≠ "") := by
  have hpresent : Present n.places :=
    Node.present hn.wellFormed ((f.format_reports level n).ok_iff.1 ⟨text, h⟩)
  refine ⟨fun p hp he => by_contra fun hk => hpresent p hp hk he, fun h p hp _ => h p hp,
    fun h p hp => ?_⟩
  by_cases hk : p.1 = .key
  · exact h p hp hk
  · exact hpresent p hp hk

/-- The argument of the field is an object whose only field has no name. -/
def unkeyed : Document :=
  ⟨[.operation
      { kind := .query
        selections := [.field { name := "a", arguments := [("x", .object [("", .null)])] }] }]⟩

/-- The builder accepts the empty key. -/
theorem unkeyed_obtained : (Subject.node (.document unkeyed)).Obtained := by
  let program : Program := .document [.operation .query none
    [.select (.fieldWith "a" [.argument "x" (.object [("", .null)])])]]
  have hdistinct : program.Distinct := by
    simp [program, Program.Distinct, DocumentStep.Distinct, OperationStep.Distinct,
      SelectionStep.Distinct, FieldStep.Distinct, FieldStep.DistinctAll, Value.Distinct,
      Value.DistinctFields, Keyed.Distinct, Keyed.keys]
  exact .built hdistinct rfl

/-- The empty key is written out as it is, so the text is no GraphQL. -/
theorem unkeyed_text :
    Formatter.format {} 0 (.document unkeyed) = .ok "\x7b\n  a(x: \x7b: null\x7d)\n\x7d" := by
  rfl

theorem Formatter.names_of_format_of_unkeyed :
    (Subject.node (.document unkeyed)).Obtained ∧
      (∃ text, Formatter.format {} 0 (.document unkeyed) = .ok text) ∧
      ∀ p ∈ (Node.document unkeyed).places, p.2 = "" → p.1 = .key :=
  ⟨unkeyed_obtained, ⟨_, unkeyed_text⟩, (Formatter.names_of_format unkeyed_obtained unkeyed_text).1⟩

/-- It has a text all the same. -/
theorem Formatter.unkeyed_rendered :
    ¬ ∀ d : Document, (Subject.node (.document d)).Obtained → ∀ (f : Formatter) (level : Nat),
      (∃ text, f.format level (.document d) = .ok text) →
        ∀ p ∈ (Node.document d).places, p.2 ≠ "" := by
  intro h
  have hall := h unkeyed unkeyed_obtained {} 0 ⟨_, unkeyed_text⟩
  have hkey : (NamePlace.key, "") ∈ (Node.document unkeyed).places := by decide
  exact hall _ hkey rfl

end QueryDocument
