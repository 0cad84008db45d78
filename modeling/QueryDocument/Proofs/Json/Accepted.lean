import QueryDocument.Proofs.Construction.Invariant
import QueryDocument.Proofs.Json.Members

/-!
What is read of JSON is well-formed: maps are filled key by key, and nodes are built by the
functions that check them.
-/
namespace QueryDocument
namespace Json

def Slot.WellFormed : (slot : Slot) → slot.Content → Prop
  | .skipped, _ | .sound, _ | .null, _ | .bool, _ | .integer, _ | .float, _ | .text, _ => True
  | .kind, _ | .tag, _ => True
  | .value, v => v.Distinct
  | .directive, d => d.WellFormed
  | .variableDefinition, d => d.WellFormed
  | .field, f => f.WellFormed
  | .fragmentSpread, s => s.WellFormed
  | .inlineFragment, f => f.WellFormed
  | .selection, s => s.WellFormed
  | .fragmentDefinition, f => f.WellFormed
  | .operation, o => o.WellFormed
  | .definition, d => d.WellFormed
  | .document, d => d.WellFormed
  | .optional slot, o => ∀ c ∈ o, slot.WellFormed c
  | .list slot, cs => ∀ c ∈ cs, slot.WellFormed c
  | .keyed slot, es => Keyed.Distinct es ∧ ∀ e ∈ es, slot.WellFormed e.2

/-- Whatever is read in whatever place is well-formed. -/
def Reading.Safe (r : Reading) : Prop :=
  ∀ (slot : Slot) (c : slot.Content), r slot = .ok c → slot.WellFormed c

def Layer.Safe : Layer → Prop
  | .array rs => ∀ r ∈ rs, r.Safe
  | .object ms => ∀ m ∈ ms, Reading.Safe m.2
  | _ => True

namespace Schema

def Contents.WellFormed : (schema : Schema) → schema.Contents → Prop
  | [], _ => True
  | (_, slot) :: rest, (c, cs) => slot.WellFormed c ∧ WellFormed rest cs

def Draft.WellFormed : (schema : Schema) → schema.Draft → Prop
  | [], _ => True
  | (_, slot) :: rest, (c, d) => (∀ x ∈ c, slot.WellFormed x) ∧ WellFormed rest d

theorem noDraft_wellFormed (schema : Schema) : Draft.WellFormed schema schema.noDraft := by
  induction schema with
  | nil => trivial
  | cons place rest ih => exact ⟨by simp, ih⟩

/-- A member fills the place of its key with something well-formed, or is refused. -/
theorem put_wellFormed {key : String} {r : Reading} (hr : r.Safe) {schema : Schema}
    {d d' : schema.Draft} (hd : Draft.WellFormed schema d)
    (h : put key r schema d = .ok d') : Draft.WellFormed schema d' := by
  induction schema with
  | nil => trivial
  | cons place rest ih =>
    obtain ⟨k, slot⟩ := place
    obtain ⟨c, d⟩ := d
    rw [put_cons] at h
    by_cases hk : k = key
    · rw [if_pos hk] at h
      cases c with
      | some c => cases h
      | none =>
        obtain ⟨c, hc, h⟩ := Outcome.bind_eq_ok.1 h
        cases h
        refine ⟨?_, hd.2⟩
        rintro x ⟨⟩
        exact hr slot c hc
    · rw [if_neg hk] at h
      obtain ⟨d₁, hd₁, h⟩ := Outcome.bind_eq_ok.1 h
      cases h
      exact ⟨hd.1, ih hd.2 hd₁⟩

theorem putAll_wellFormed {schema : Schema} {ms : List (Option String × Reading)}
    (hm : ∀ m ∈ ms, Reading.Safe m.2) {d d' : schema.Draft} (hd : Draft.WellFormed schema d)
    (h : schema.putAll ms d = .ok d') : Draft.WellFormed schema d' := by
  induction ms generalizing d with
  | nil =>
    cases h
    exact hd
  | cons m ms ih =>
    rw [List.forall_mem_cons] at hm
    obtain ⟨key, r⟩ := m
    cases key with
    | none => cases h
    | some key =>
      obtain ⟨d₁, hd₁, h⟩ := Outcome.bind_eq_ok.1 h
      exact ih hm.2 (put_wellFormed hm.1 hd hd₁) h

/-- Only an optional place may be left open, and then it holds nothing. -/
theorem missing_wellFormed {slot : Slot} {c : slot.Content} (h : missing slot = .ok c) :
    slot.WellFormed c := by
  cases slot with
  | optional slot =>
    cases h
    intro x hx
    cases hx
  | _ => cases h

theorem complete_cons (k : String) (slot : Slot) (rest : Schema) (c : Option slot.Content)
    (d : Draft rest) :
    complete ((k, slot) :: rest) (c, d) = ((match c with
      | some c => .ok c
      | none => missing slot) >>= fun c => complete rest d >>= fun cs => pure (c, cs)) := by
  cases c <;> rfl

/-- The places not filled by any member are filled now, or the object is refused. -/
theorem complete_wellFormed {schema : Schema} {d : schema.Draft} (hd : Draft.WellFormed schema d)
    {cs : schema.Contents} (h : schema.complete d = .ok cs) : Contents.WellFormed schema cs := by
  induction schema with
  | nil => trivial
  | cons place rest ih =>
    obtain ⟨k, slot⟩ := place
    obtain ⟨c, d⟩ := d
    rw [complete_cons] at h
    obtain ⟨c', hc, h⟩ := Outcome.bind_eq_ok.1 h
    obtain ⟨cs', hcs, h⟩ := Outcome.bind_eq_ok.1 h
    cases h
    refine ⟨?_, ih hd.2 hcs⟩
    cases c with
    | none => exact missing_wellFormed hc
    | some c =>
      cases hc
      exact hd.1 c' rfl

/-- The array form of an object is read place by place. -/
theorem inOrder_wellFormed {schema : Schema} {rs : List Reading} (hr : ∀ r ∈ rs, r.Safe)
    {cs : schema.Contents} (h : schema.inOrder rs = .ok cs) : Contents.WellFormed schema cs := by
  induction schema generalizing rs with
  | nil => trivial
  | cons place rest ih =>
    obtain ⟨k, slot⟩ := place
    cases rs with
    | nil => cases h
    | cons r rs =>
      rw [List.forall_mem_cons] at hr
      obtain ⟨c, hc, h⟩ := Outcome.bind_eq_ok.1 h
      obtain ⟨cs', hcs, h⟩ := Outcome.bind_eq_ok.1 h
      cases h
      exact ⟨hr.1 slot c hc, ih hr.2 hcs⟩

end Schema

namespace Layer

variable {l inside : Layer}

theorem struct_wellFormed (hl : l.Safe) {schema : Schema} {cs : schema.Contents}
    (h : l.struct schema = .ok cs) : Schema.Contents.WellFormed schema cs := by
  cases l with
  | array rs => exact Schema.inOrder_wellFormed hl h
  | object ms =>
    obtain ⟨d, hd, h⟩ := Outcome.bind_eq_ok.1 h
    exact Schema.complete_wellFormed
      (Schema.putAll_wellFormed hl (Schema.noDraft_wellFormed schema) hd) h
  | _ => cases h

theorem toList_wellFormed (hl : l.Safe) {slot : Slot} {cs : List slot.Content}
    (h : l.toList slot = .ok cs) : (Slot.list slot).WellFormed cs := by
  cases l with
  | array rs => exact Outcome.forall_of_mapM (fun r hr c hc => hl r hr slot c hc) h
  | _ => cases h

/-- Of two members of one name the later value stays in the earlier place, so that the keys are
kept apart. -/
theorem entriesOf_wellFormed {slot : Slot} {ms : List (Option String × Reading)}
    (hm : ∀ m ∈ ms, Reading.Safe m.2) {es es' : Keyed slot.Content}
    (hes : (Slot.keyed slot).WellFormed es) (h : entriesOf slot ms es = .ok es') :
    (Slot.keyed slot).WellFormed es' := by
  induction ms generalizing es with
  | nil =>
    cases h
    exact hes
  | cons m ms ih =>
    rw [List.forall_mem_cons] at hm
    obtain ⟨key, r⟩ := m
    cases key with
    | none => cases h
    | some key =>
      obtain ⟨c, hc, h⟩ := Outcome.bind_eq_ok.1 h
      refine ih hm.2 ⟨hes.1.insert key c, fun e he => ?_⟩ h
      rcases Keyed.mem_insert he with rfl | he
      · exact hm.1 slot c hc
      · exact hes.2 e he

theorem toKeyed_wellFormed (hl : l.Safe) {slot : Slot} {es : Keyed slot.Content}
    (h : l.toKeyed slot = .ok es) : (Slot.keyed slot).WellFormed es := by
  cases l with
  | object ms =>
    have hnil : (Slot.keyed slot).WellFormed [] := ⟨List.nodup_nil, by simp⟩
    exact entriesOf_wellFormed hl hnil h
  | _ => cases h

/-- An object value has its keys apart, at every depth. -/
theorem toValue_distinct (hl : l.Safe) {v : Value} (h : l.toValue = .ok v) : v.Distinct := by
  unfold toValue at h
  split at h
  case h_6 r =>
    obtain ⟨items, hi, rfl⟩ := Outcome.map_eq_ok.1 h
    have hitems := hl (some "List", r) (by simp) (.list .value) items hi
    rw [Value.Distinct, Value.distinctItems_iff]
    exact hitems
  case h_8 r =>
    obtain ⟨fields, hf, rfl⟩ := Outcome.map_eq_ok.1 h
    have hfields := hl (some "Object", r) (by simp) (.keyed .value) fields hf
    rw [Value.Distinct, Value.distinctFields_iff]
    exact hfields
  case h_1 => cases h; trivial
  case h_11 => cases h
  all_goals
    obtain ⟨x, -, rfl⟩ := Outcome.map_eq_ok.1 h
    trivial

theorem built_eq_ok {α : Type} {b : Built α} {a : α} : built b = .ok a ↔ b = .ok a :=
  Outcome.mapError_eq_ok

theorem arguments_distinct {args : List (String × Value)}
    (h : (Slot.keyed .value).WellFormed args) : Arguments.Distinct args :=
  ⟨h.1, (Value.distinctFields_iff args).2 h.2⟩

/-- The directive is made by the function that checks its names. -/
theorem toDirective_wellFormed (hl : l.Safe) {d : Directive} (h : l.toDirective = .ok d) :
    d.WellFormed := by
  obtain ⟨⟨args, name, u⟩, hs, h⟩ := Outcome.bind_eq_ok.1 h
  have hcs := struct_wellFormed hl hs
  exact Directive.wellFormed_of_withArguments (arguments_distinct hcs.1) (built_eq_ok.1 h)

theorem toVariableDefinition_wellFormed (hl : l.Safe) {d : VariableDefinition}
    (h : l.toVariableDefinition = .ok d) : d.WellFormed := by
  obtain ⟨⟨default, ds, type, u⟩, hs, h⟩ := Outcome.bind_eq_ok.1 h
  obtain ⟨hdefault, hds, -⟩ := struct_wellFormed hl hs
  obtain ⟨d₀, hd₀, h⟩ := Outcome.bind_eq_ok.1 (built_eq_ok.1 h)
  cases h
  exact ⟨(VariableDefinition.wellFormed_of_new hd₀).typed, hdefault, hds⟩

theorem toFragmentSpread_wellFormed (hl : l.Safe) {s : FragmentSpread}
    (h : l.toFragmentSpread = .ok s) : s.WellFormed := by
  obtain ⟨⟨ds, name, u⟩, hs, h⟩ := Outcome.bind_eq_ok.1 h
  obtain ⟨hds, -⟩ := struct_wellFormed hl hs
  obtain ⟨s₀, hs₀, h⟩ := Outcome.bind_eq_ok.1 (built_eq_ok.1 h)
  cases h
  exact ⟨(FragmentSpread.wellFormed_new hs₀).named, hds⟩

/-- A field is built as a caller would do it, so the same is refused. -/
theorem toField_wellFormed (hl : l.Safe) {f : Field} (h : l.toField = .ok f) : f.WellFormed := by
  obtain ⟨⟨label, args, ds, name, ss, u⟩, hs, h⟩ := Outcome.bind_eq_ok.1 h
  obtain ⟨-, hargs, hds, -, hss, -⟩ := struct_wellFormed hl hs
  obtain ⟨f₀, hf₀, h⟩ := Outcome.bind_eq_ok.1 (built_eq_ok.1 h)
  have hf₀ := Field.wellFormed_new hf₀
  obtain ⟨f₁, hf₁, h⟩ : ∃ f₁ : Field, f₁.WellFormed ∧
      (do
        let f ← (Field.setArguments args).made f₁
        pure { f with directives := ds, selections := ss }) = (.ok f : Built Field) := by
    cases label with
    | none => exact ⟨f₀, hf₀, h⟩
    | some text =>
      obtain ⟨f₁, hf₁, h⟩ := Outcome.bind_eq_ok.1 h
      exact ⟨f₁, Change.of_made (Field.wellFormed_setLabel hf₀) hf₁, h⟩
  obtain ⟨f₂, hf₂, h⟩ := Outcome.bind_eq_ok.1 h
  cases h
  have hf := (Field.wellFormed_iff f₂).1
    (Change.of_made (Field.wellFormed_setArguments (arguments_distinct hargs) hf₁) hf₂)
  exact (Field.wellFormed_iff _).2 ⟨hf.1, hf.2.1, hf.2.2.1, hds, hss⟩

/-- An inline fragment without selections is refused as at the end of a block. -/
theorem toInlineFragment_wellFormed (hl : l.Safe) {f : InlineFragment}
    (h : l.toInlineFragment = .ok f) : f.WellFormed := by
  obtain ⟨⟨ds, ss, type, u⟩, hs, h⟩ := Outcome.bind_eq_ok.1 h
  obtain ⟨hds, hss, -⟩ := struct_wellFormed hl hs
  have hopen : InlineFragment.Open
      { InlineFragment.new type with directives := ds, selections := ss } :=
    ⟨(InlineFragment.open_new type).typed, hds, hss⟩
  exact InlineFragment.wellFormed_close hopen (built_eq_ok.1 h)

theorem toFragmentDefinition_wellFormed (hl : l.Safe) {f : FragmentDefinition}
    (h : l.toFragmentDefinition = .ok f) : f.WellFormed := by
  obtain ⟨⟨ds, name, ss, type, u⟩, hs, h⟩ := Outcome.bind_eq_ok.1 h
  obtain ⟨hds, -, hss, -⟩ := struct_wellFormed hl hs
  obtain ⟨f₀, hf₀, h⟩ := Outcome.bind_eq_ok.1 (built_eq_ok.1 h)
  cases h
  have hf := FragmentDefinition.wellFormed_new hf₀
  exact ⟨hf.named, hf.typed, hds, hss⟩

/-- The variables are declared anew, and those without a name are refused. -/
theorem toOperation_wellFormed (hl : l.Safe) {o : Operation} (h : l.toOperation = .ok o) :
    o.WellFormed := by
  obtain ⟨⟨ds, kind, name, ss, declared, u⟩, hs, h⟩ := Outcome.bind_eq_ok.1 h
  obtain ⟨hds, -, -, hss, hdeclared, -⟩ := struct_wellFormed hl hs
  obtain ⟨o₀, ho₀, h⟩ := Outcome.bind_eq_ok.1 (built_eq_ok.1 h)
  obtain ⟨o₁, ho₁, h⟩ := Outcome.bind_eq_ok.1 h
  cases h
  have ho := Change.of_made
    (Operation.wellFormed_declareAll hdeclared.2 (Operation.wellFormed_new ho₀)) ho₁
  exact { ho with directives := hds, selections := hss }

/-- What a node holds besides its tag is read by the same readings. -/
theorem attributes_safe (hl : l.Safe) : l.attributes.Safe := by
  cases l with
  | array rs => exact fun r hr => hl r (List.mem_of_mem_tail hr)
  | object ms => exact fun m hm => hl m (List.mem_filter.1 hm).1
  | _ => trivial

theorem toSelection_wellFormed (hi : inside.Safe) {s : Selection}
    (h : l.toSelection inside = .ok s) : s.WellFormed := by
  have ha := attributes_safe hi
  obtain ⟨tag, -, h⟩ := Outcome.bind_eq_ok.1 h
  split at h
  · obtain ⟨f, hf, rfl⟩ := Outcome.map_eq_ok.1 h
    exact toField_wellFormed ha hf
  · obtain ⟨f, hf, rfl⟩ := Outcome.map_eq_ok.1 h
    exact toFragmentSpread_wellFormed ha hf
  · obtain ⟨f, hf, rfl⟩ := Outcome.map_eq_ok.1 h
    exact toInlineFragment_wellFormed ha hf
  · unfold discard at h
    split at h
    · cases h
    · cases h
      trivial

theorem toDefinition_wellFormed (hi : inside.Safe) {d : Definition}
    (h : l.toDefinition inside = .ok d) : d.WellFormed := by
  have ha := attributes_safe hi
  obtain ⟨tag, -, h⟩ := Outcome.bind_eq_ok.1 h
  split at h
  · obtain ⟨f, hf, rfl⟩ := Outcome.map_eq_ok.1 h
    exact toFragmentDefinition_wellFormed ha hf
  · obtain ⟨o, ho, rfl⟩ := Outcome.map_eq_ok.1 h
    exact toOperation_wellFormed ha ho
  · unfold discard at h
    split at h
    · cases h
    · cases h
      trivial

theorem toDocument_wellFormed (hl : l.Safe) {d : Document} (h : l.toDocument = .ok d) :
    d.WellFormed := by
  obtain ⟨⟨definitions, u⟩, hs, h⟩ := Outcome.bind_eq_ok.1 h
  cases h
  exact (struct_wellFormed hl hs).1

/-- Null stands for nothing, and anything else for what the place may hold. -/
theorem read_optional_eq (l inside : Layer) (s : Strictness) (slot : Slot) :
    l.read s inside (.optional slot) = match l with
      | .null => .ok none
      | _ => some <$> l.read s inside slot := rfl

/-- One layer is read safely if its parts are. -/
theorem read_safe (l inside : Layer) (hl : l.Safe) (hi : inside.Safe) (s : Strictness) :
    Reading.Safe (l.read s inside) := by
  intro slot
  induction slot with
  | value => exact fun v h => toValue_distinct hl h
  | directive => exact fun d h => toDirective_wellFormed hl h
  | variableDefinition => exact fun d h => toVariableDefinition_wellFormed hl h
  | field => exact fun f h => toField_wellFormed hl h
  | fragmentSpread => exact fun x h => toFragmentSpread_wellFormed hl h
  | inlineFragment => exact fun f h => toInlineFragment_wellFormed hl h
  | selection => exact fun x h => toSelection_wellFormed hi h
  | fragmentDefinition => exact fun f h => toFragmentDefinition_wellFormed hl h
  | operation => exact fun o h => toOperation_wellFormed hl h
  | definition => exact fun d h => toDefinition_wellFormed hi h
  | document => exact fun d h => toDocument_wellFormed hl h
  | list slot => exact fun cs h => toList_wellFormed hl h
  | keyed slot => exact fun es h => toKeyed_wellFormed hl h
  | optional slot ih =>
    intro o h
    rw [read_optional_eq] at h
    split at h
    · cases h
      intro c hc
      cases hc
    · obtain ⟨c, hc, rfl⟩ := Outcome.map_eq_ok.1 h
      rintro c' ⟨⟩
      exact ih c hc
  | _ => exact fun _ _ => trivial

end Layer

mutual
-- The parts of a container are read twice over, strictly and leniently, and safely both times.
theorem read_safe : (j : Json) → ∀ s, Reading.Safe (j.read s)
  | .null, s => Layer.read_safe .null .null trivial trivial s
  | .bool _, s => Layer.read_safe (.bool _) (.bool _) trivial trivial s
  | .number _, s => Layer.read_safe (.number _) (.number _) trivial trivial s
  | .string _, s => Layer.read_safe (.string _) (.string _) trivial trivial s
  | .array js, s => Layer.read_safe (.array _) (.array _) (readItems_safe js s)
    (readItems_safe js .lenient) s
  | .object ms, s => Layer.read_safe (.object _) (.object _) (readMembers_safe ms s)
    (readMembers_safe ms .lenient) s
  | .broken, s => Layer.read_safe .broken .broken trivial trivial s

theorem readItems_safe : (js : List Json) → ∀ s, ∀ r ∈ readItems js s, Reading.Safe r
  | [], _ => by simp [readItems]
  | j :: js, s => List.forall_mem_cons.2 ⟨read_safe j s, readItems_safe js s⟩

theorem readMembers_safe : (ms : List (Option String × Json)) → ∀ s, ∀ m ∈ readMembers ms s,
    Reading.Safe m.2
  | [], _ => by simp [readMembers]
  | (_, j) :: ms, s => List.forall_mem_cons.2 ⟨read_safe j s, readMembers_safe ms s⟩
end

/-- Whatever is read of a text is well-formed. -/
theorem decode_wellFormed {slot : Slot} {text : String} {c : slot.Content}
    (h : decode slot text = .ok c) : slot.WellFormed c := by
  obtain ⟨c', hc, h⟩ := Outcome.bind_eq_ok.1 h
  have hsafe := read_safe _ .strict slot c' hc
  split at h
  · cases h
    exact hsafe
  · cases h

end Json
end QueryDocument
