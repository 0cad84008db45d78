import QueryDocument.Proofs.Construction.Lawful
import QueryDocument.Proofs.Json.Denoted
import QueryDocument.Proofs.Json.Accepted

/-!
Reading one layer of a tree whose parts are known to be read or refused by the rules of building
alone: then so is the layer. A struct is refused if any of its members is, in whatever order they
stand and whatever stands between them.
-/
namespace QueryDocument
namespace Json

def Slot.Lawful : (slot : Slot) → slot.Content → Prop
  | .directive, d => d.Lawful
  | .variableDefinition, d => d.Lawful
  | .field, f => f.Lawful
  | .fragmentSpread, s => s.Lawful
  | .inlineFragment, f => f.Lawful
  | .selection, s => s.Lawful
  | .fragmentDefinition, f => f.Lawful
  | .operation, o => o.Lawful
  | .definition, d => d.Lawful
  | .document, d => d.Lawful
  | .optional slot, o => ∀ c ∈ o, slot.Lawful c
  | .list slot, cs => ∀ c ∈ cs, slot.Lawful c
  | .keyed slot, es => ∀ e ∈ es, slot.Lawful e.2
  | .skipped, _ | .sound, _ | .null, _ | .bool, _ | .integer, _ | .float, _ | .text, _ => True
  | .value, _ | .kind, _ | .tag, _ => True

def Slot.normal : (slot : Slot) → slot.Content → slot.Content
  | .field, f => f.normalized
  | .inlineFragment, f => f.normalized
  | .selection, s => s.normalized
  | .fragmentDefinition, f => f.normalized
  | .operation, o => o.normalized
  | .definition, d => d.normalized
  | .document, d => d.normalized
  | .optional slot, o => o.map slot.normal
  | .list slot, cs => cs.map slot.normal
  | .keyed slot, es => es.map fun e => (e.1, slot.normal e.2)
  | .skipped, c | .sound, c | .null, c | .bool, c | .integer, c | .float, c | .text, c => c
  | .value, c | .kind, c | .tag, c | .directive, c | .variableDefinition, c => c
  | .fragmentSpread, c => c

namespace Schema

def Contents.Lawful : (schema : Schema) → schema.Contents → Prop
  | [], _ => True
  | (_, slot) :: rest, (c, cs) => slot.Lawful c ∧ Contents.Lawful rest cs

def Contents.normal : (schema : Schema) → schema.Contents → schema.Contents
  | [], _ => ()
  | (_, slot) :: rest, (c, cs) => (slot.normal c, Contents.normal rest cs)

end Schema

theorem Slot.lawful_optional (slot : Slot) (o : Option slot.Content) :
    (Slot.optional slot).Lawful o ↔ ∀ c ∈ o, slot.Lawful c := Iff.rfl

/-- There are no rules for what stands in the slot, and nothing in it is changed. -/
structure Slot.Inert (slot : Slot) : Prop where
  lawful : ∀ c, slot.Lawful c
  normal : ∀ c, slot.normal c = c

theorem Slot.normal_list {slot : Slot} (h : ∀ c, slot.normal c = c) (cs : List slot.Content) :
    (Slot.list slot).normal cs = cs :=
  (List.map_congr_left fun c _ => h c).trans (List.map_id cs)

namespace Slot.Inert

variable {slot : Slot}

theorem text : Slot.text.Inert := ⟨fun _ => trivial, fun _ => rfl⟩

theorem value : Slot.value.Inert := ⟨fun _ => trivial, fun _ => rfl⟩

/-- What may be missing is as inert as what may be there. -/
theorem optional (h : slot.Inert) : (Slot.optional slot).Inert where
  lawful _ c _ := h.lawful c
  normal _ := (Option.map_congr fun c _ => h.normal c).trans Option.map_id_apply

theorem list (h : slot.Inert) : (Slot.list slot).Inert where
  lawful _ c _ := h.lawful c
  normal := Slot.normal_list h.normal

theorem keyed (h : slot.Inert) : (Slot.keyed slot).Inert where
  lawful _ e _ := h.lawful e.2
  normal es :=
    (List.map_congr_left fun e _ => congrArg (e.1, ·) (h.normal e.2)).trans (List.map_id es)

end Slot.Inert

namespace Schema

theorem normal_directive (args : Arguments) (name : String) :
    Contents.normal directive (args, name, ()) = (args, name, ()) := by
  change ((Slot.keyed .value).normal args, name, ()) = _
  rw [Slot.Inert.value.keyed.normal]

theorem normal_variableDefinition (default : Option Value) (ds : List Directive) (type : String) :
    Contents.normal variableDefinition (default, ds, type, ()) = (default, ds, type, ()) := by
  change ((Slot.optional .value).normal default, (Slot.list .directive).normal ds, type, ()) = _
  rw [Slot.Inert.value.optional.normal, Slot.normal_list fun _ => rfl]

theorem normal_fragmentSpread (ds : List Directive) (name : String) :
    Contents.normal fragmentSpread (ds, name, ()) = (ds, name, ()) := by
  change ((Slot.list .directive).normal ds, name, ()) = _
  rw [Slot.normal_list fun _ => rfl]

/-- Only the selections of a field are changed, for there may be inline fragments below. -/
theorem normal_field (label : Option String) (args : Arguments) (ds : List Directive)
    (name : String) (ss : List Selection) :
    Contents.normal field (label, args, ds, name, ss, ()) =
      (label, args, ds, name, ss.map Selection.normalized, ()) := by
  change ((Slot.optional .text).normal label, (Slot.keyed .value).normal args,
    (Slot.list .directive).normal ds, name, ss.map Selection.normalized, ()) = _
  rw [Slot.Inert.text.optional.normal, Slot.Inert.value.keyed.normal, Slot.normal_list fun _ => rfl]

theorem normal_inlineFragment (ds : List Directive) (ss : List Selection) (type : Option String) :
    Contents.normal inlineFragment (ds, ss, type, ()) =
      (ds, ss.map Selection.normalized, type, ()) := by
  change ((Slot.list .directive).normal ds, ss.map Selection.normalized,
    (Slot.optional .text).normal type, ()) = _
  rw [Slot.Inert.text.optional.normal, Slot.normal_list fun _ => rfl]

theorem normal_fragmentDefinition (ds : List Directive) (name : String) (ss : List Selection)
    (type : String) : Contents.normal fragmentDefinition (ds, name, ss, type, ()) =
      (ds, name, ss.map Selection.normalized, type, ()) := by
  change ((Slot.list .directive).normal ds, name, ss.map Selection.normalized, type, ()) = _
  rw [Slot.normal_list fun _ => rfl]

/-- The variables are changed where they are declared, and not before. -/
theorem normal_operation (ds : List Directive) (kind : OperationKind) (name : Option String)
    (ss : List Selection) (declared : Keyed VariableDefinition) :
    Contents.normal operation (ds, kind, name, ss, declared, ()) =
      (ds, kind, name, ss.map Selection.normalized, declared, ()) := by
  change ((Slot.list .directive).normal ds, kind, (Slot.optional .text).normal name,
    ss.map Selection.normalized, declared.map (fun e => (e.1, e.2)), ()) = _
  rw [Slot.normal_list fun _ => rfl, Slot.Inert.text.optional.normal]
  exact congrArg (ds, kind, name, ss.map Selection.normalized, ·, ()) (List.map_id declared)

theorem normal_document (definitions : List Definition) :
    Contents.normal document (definitions, ()) =
      (definitions.map Definition.normalized, ()) := rfl

theorem lawful_directive (args : Arguments) (name : String) :
    Contents.Lawful directive (args, name, ()) ∧ Directive.Lawful ⟨name, args⟩ ↔
      Directive.Lawful ⟨name, args⟩ :=
  and_iff_right ⟨Slot.Inert.value.keyed.lawful args, trivial, trivial⟩

/-- The default has no rules. -/
theorem lawful_variableDefinition (default : Option Value) (ds : List Directive) (type : String) :
    Contents.Lawful variableDefinition (default, ds, type, ()) ∧ type ≠ "" ↔
      VariableDefinition.Lawful ⟨type, default, ds⟩ := by
  constructor
  · exact fun h => ⟨h.2, h.1.2.1⟩
  · exact fun h =>
      ⟨⟨Slot.Inert.value.optional.lawful default, h.directives, trivial, trivial⟩, h.typed⟩

theorem lawful_fragmentSpread (ds : List Directive) (name : String) :
    Contents.Lawful fragmentSpread (ds, name, ()) ∧ name ≠ "" ↔
      FragmentSpread.Lawful ⟨name, ds⟩ := by
  constructor
  · exact fun h => ⟨h.2, h.1.1⟩
  · exact fun h => ⟨⟨h.directives, trivial, trivial⟩, h.named⟩

/-- The rules for the parts of a field and those for the field itself, taken together. -/
theorem lawful_field (label : Option String) (args : Arguments) (ds : List Directive)
    (name : String) (ss : List Selection) :
    Contents.Lawful field (label, args, ds, name, ss, ()) ∧
        name ≠ "" ∧ label ≠ some "" ∧ (∀ k ∈ Keyed.keys args, k ≠ "") ↔
      Field.Lawful ⟨name, label, args, ds, ss⟩ := by
  rw [Field.Lawful, Selection.lawfulAll_iff]
  constructor
  · rintro ⟨⟨-, -, hds, -, hss, -⟩, hname, hlabel, hargs⟩
    exact ⟨hname, hlabel, hargs, hds, hss⟩
  · rintro ⟨hname, hlabel, hargs, hds, hss⟩
    exact ⟨⟨Slot.Inert.text.optional.lawful label, Slot.Inert.value.keyed.lawful args, hds, trivial,
      hss, trivial⟩, hname, hlabel, hargs⟩

/-- It does not matter whether the selections are counted before or after they are
normalized. -/
theorem lawful_inlineFragment (ds : List Directive) (ss : List Selection) (type : Option String) :
    Contents.Lawful inlineFragment (ds, ss, type, ()) ∧ ss.map Selection.normalized ≠ [] ↔
      InlineFragment.Lawful ⟨type, ds, ss⟩ := by
  rw [InlineFragment.Lawful, Selection.lawfulAll_iff, ne_eq, List.map_eq_nil_iff]
  constructor
  · rintro ⟨⟨hds, hss, -⟩, hne⟩
    exact ⟨hds, hne, hss⟩
  · rintro ⟨hds, hne, hss⟩
    exact ⟨⟨hds, hss, Slot.Inert.text.optional.lawful type, trivial⟩, hne⟩

theorem lawful_fragmentDefinition (ds : List Directive) (name : String) (ss : List Selection)
    (type : String) :
    Contents.Lawful fragmentDefinition (ds, name, ss, type, ()) ∧ name ≠ "" ∧ type ≠ "" ↔
      FragmentDefinition.Lawful ⟨name, type, ds, ss⟩ := by
  constructor
  · rintro ⟨⟨hds, -, hss, -⟩, hname, htype⟩
    exact ⟨hname, htype, hds, hss⟩
  · exact fun h => ⟨⟨h.directives, trivial, h.selections, trivial, trivial⟩, h.named, h.typed⟩

/-- A variable must have a name behind the dollar sign that is dropped. -/
theorem lawful_operation (ds : List Directive) (kind : OperationKind) (name : Option String)
    (ss : List Selection) (declared : Keyed VariableDefinition) :
    Contents.Lawful operation (ds, kind, name, ss, declared, ()) ∧
        name ≠ some "" ∧ (∀ d ∈ declared, bareName d.1 ≠ "") ↔
      Operation.Lawful ⟨kind, name, declared, ds, ss⟩ := by
  constructor
  · rintro ⟨⟨hds, -, -, hss, hdeclared, -⟩, hname, hvariables⟩
    exact ⟨hname, hvariables, hdeclared, hds, hss⟩
  · exact fun h => ⟨⟨h.directives, trivial, Slot.Inert.text.optional.lawful name, h.selections,
      h.declarations, trivial⟩, h.named, h.variablesNamed⟩

theorem lawful_document (definitions : List Definition) :
    Contents.Lawful document (definitions, ()) ↔ Document.Lawful ⟨definitions⟩ :=
  and_iff_left trivial

end Schema

/-- It is read as `a` if `p` holds, and refused by a rule of building if not. -/
abbrev Obeys {α : Type} (r : Reads α) (p : Prop) (a : α) : Prop :=
  Outcome.Settles (fun e => ∃ b, e = .invalid b) r p a

namespace Obeys

variable {α β : Type} {r : Reads α} {p q : Prop} {a : α} {b : β}

theorem ok (a : α) : Obeys (.ok a) True a := Outcome.Settles.ok a

/-- Rules that are checked one after the other hold together. -/
theorem bind {f : α → Reads β} (h : Obeys r p a) (hf : Obeys (f a) q b) :
    Obeys (r >>= f) (p ∧ q) b := Outcome.Settles.bind h hf

theorem pure (h : Obeys r p a) (f : α → β) : Obeys (r >>= fun a => Pure.pure (f a)) p (f a) :=
  (h.bind (.ok (f a))).congr (and_iff_left trivial)

/-- A rule that is broken in building is told as such, and not as malformed JSON. -/
theorem built {b : Built α} (h : Checks b p a) : Obeys (Layer.built b) p a :=
  h.mapError fun e _ => ⟨e, rfl⟩

end Obeys

namespace Schema

/-- The members of an object, each under a key. -/
def named (ms : List (String × Reading)) : List (Option String × Reading) :=
  ms.map fun m => (some m.1, m.2)

/-- A member of another name is skipped. -/
theorem put_of_foreign {schema : Schema} {key : String} (hk : key ∉ schema.map Prod.fst)
    {r : Reading} (hr : r .skipped = .ok ()) (d : schema.Draft) : put key r schema d = .ok d := by
  induction schema with
  | nil =>
    have hskip : put key r [] d = (r .skipped >>= fun _ => .ok d) := rfl
    rw [hskip, hr, Outcome.ok_bind]
  | cons place rest ih =>
    obtain ⟨k, slot⟩ := place
    obtain ⟨c, d⟩ := d
    rw [List.map_cons, List.mem_cons, not_or] at hk
    rw [put_of_ne (Ne.symm hk.1), ih hk.2, Outcome.map_ok]

theorem putAll_of_foreign {schema : Schema} {ms : List (String × Reading)}
    (hk : ∀ m ∈ ms, m.1 ∉ schema.map Prod.fst) (hs : ∀ m ∈ ms, m.2 .skipped = .ok ())
    (d : schema.Draft) : putAll schema (named ms) d = .ok d := by
  induction ms with
  | nil => rfl
  | cons m ms ih =>
    rw [List.forall_mem_cons] at hk hs
    rw [named, List.map_cons, putAll, put_of_foreign hk.1 hs.1, Outcome.ok_bind]
    exact ih hk.2 hs.2

/-- The member of the first place may stand anywhere among those of the other places. -/
theorem putAll_obeys_cons {k : String} {slot : Slot} {rest : Schema}
    (hk : k ∉ rest.map Prod.fst) {ms : List (String × Reading)} (hd : (ms.map Prod.fst).Nodup)
    (hs : ∀ m ∈ ms, m.2 .skipped = .ok ()) {r : Reading} (hm : (k, r) ∈ ms) {p q : Prop}
    {c : slot.Content} (hr : Obeys (r slot) p c) {d d' : rest.Draft}
    (h : Obeys (putAll rest (named ms) d) q d') :
    Obeys (putAll ((k, slot) :: rest) (named ms) (none, d)) (p ∧ q) (some c, d') := by
  induction ms generalizing d with
  | nil => cases hm
  | cons m ms ih =>
    obtain ⟨key, r'⟩ := m
    obtain ⟨hnew, hd⟩ := List.nodup_cons.1 hd
    obtain ⟨hs', hs⟩ := List.forall_mem_cons.1 hs
    rw [named, List.map_cons, putAll] at h ⊢
    by_cases hkey : key = k
    · subst hkey
      -- Here the place is filled. The members behind are those of the other places, or foreign.
      have hr' : r = r' := by
        rcases List.mem_cons.1 hm with he | hm
        · exact congrArg Prod.snd he
        · exact absurd (List.mem_map_of_mem hm) hnew
      subst hr'
      rw [put_of_foreign hk hs', Outcome.ok_bind] at h
      rw [put_self, bind_map_left]
      refine hr.bind ?_
      have hne : ∀ m ∈ ms, m.1 ≠ key := by
        rintro m hmem rfl
        exact hnew (List.mem_map.2 ⟨m, hmem, rfl⟩)
      rw [putAll_cons_of_ne hne]
      exact h.map _
    · have hm : (k, r) ∈ ms := by
        rcases List.mem_cons.1 hm with he | hm
        · exact absurd (congrArg Prod.fst he).symm hkey
        · exact hm
      rw [put_of_ne (Ne.symm hkey), bind_map_left]
      -- A member before it may be refused already, by a rule that is not told which.
      cases hput : put key r' rest d with
      | error e =>
        rw [hput, Outcome.error_bind] at h
        exact h.of_error And.right _
      | ok d₁ =>
        rw [hput, Outcome.ok_bind] at h
        exact ih hd hs hm h

end Schema

namespace Layer

variable {l inside : Layer} {p : Prop}

/-- First the members are read, then the directive is made of them. -/
theorem toDirective_obeys {args : Arguments} {name : String}
    (h : Obeys (l.struct Schema.directive) p (args, name, ())) :
    Obeys l.toDirective (p ∧ Directive.Lawful ⟨name, args⟩) ⟨name, args⟩ :=
  h.bind (.built (Directive.withArguments_checks name args))

theorem toVariableDefinition_obeys {default : Option Value} {ds : List Directive} {type : String}
    (h : Obeys (l.struct Schema.variableDefinition) p (default, ds, type, ())) :
    Obeys l.toVariableDefinition (p ∧ type ≠ "") ⟨type, default, ds⟩ :=
  h.bind (.built ((VariableDefinition.new_checks type).pure fun d =>
    { d with default, directives := ds }))

theorem toFragmentSpread_obeys {ds : List Directive} {name : String}
    (h : Obeys (l.struct Schema.fragmentSpread) p (ds, name, ())) :
    Obeys l.toFragmentSpread (p ∧ name ≠ "") ⟨name, ds⟩ :=
  h.bind (.built ((FragmentSpread.new_checks name).pure fun s => { s with directives := ds }))

/-- The name is checked first, then the label, then the arguments. -/
theorem toField_obeys {label : Option String} {args : Arguments} {ds : List Directive}
    {name : String} {ss : List Selection}
    (h : Obeys (l.struct Schema.field) p (label, args, ds, name, ss, ())) :
    Obeys l.toField (p ∧ name ≠ "" ∧ label ≠ some "" ∧ ∀ k ∈ Keyed.keys args, k ≠ "")
      ⟨name, label, args, ds, ss⟩ := by
  have hargs (f : Field) := (Field.setArguments_checks args f).pure fun f =>
    { f with directives := ds, selections := ss }
  refine h.bind (.built ((Field.new_checks name).bind ?_))
  cases label with
  | none => exact (hargs { name }).congr (by simp)
  | some text =>
    exact ((Field.setLabel_checks text { name }).bind (hargs _)).congr (by simp)

/-- An empty type condition is dropped when all members have been read. -/
theorem toInlineFragment_obeys {ds : List Directive} {ss : List Selection} {type : Option String}
    (h : Obeys (l.struct Schema.inlineFragment) p (ds, ss, type, ())) :
    Obeys l.toInlineFragment (p ∧ ss ≠ []) ⟨type.filter fun t => !t.isEmpty, ds, ss⟩ :=
  h.bind (.built (InlineFragment.close_checks ⟨type.filter fun t => !t.isEmpty, ds, ss⟩))

theorem toFragmentDefinition_obeys {ds : List Directive} {name : String} {ss : List Selection}
    {type : String} (h : Obeys (l.struct Schema.fragmentDefinition) p (ds, name, ss, type, ())) :
    Obeys l.toFragmentDefinition (p ∧ name ≠ "" ∧ type ≠ "") ⟨name, type, ds, ss⟩ :=
  h.bind (.built ((FragmentDefinition.new_checks name type).pure fun f =>
    { f with directives := ds, selections := ss }))

/-- Under the names without their dollar signs, the later of two variables wins and takes the
place of the first. -/
theorem toOperation_obeys {ds : List Directive} {kind : OperationKind} {name : Option String}
    {ss : List Selection} {declared : Keyed VariableDefinition}
    (h : Obeys (l.struct Schema.operation) p (ds, kind, name, ss, declared, ())) :
    Obeys l.toOperation (p ∧ name ≠ some "" ∧ ∀ d ∈ declared, bareName d.1 ≠ "")
      ⟨kind, name, Keyed.ofPairs (declared.map fun d => (bareName d.1, d.2)), ds, ss⟩ := by
  have hdeclared := (Operation.declareAll_checks declared { kind, name }).pure fun o =>
    { o with directives := ds, selections := ss }
  exact h.bind (.built ((Operation.new_checks kind name).bind hdeclared))

theorem toDocument_obeys {definitions : List Definition}
    (h : Obeys (l.struct Schema.document) p (definitions, ())) :
    Obeys l.toDocument p ⟨definitions⟩ :=
  h.pure fun cs : Schema.document.Contents => Document.mk cs.1

end Layer
end Json
end QueryDocument
