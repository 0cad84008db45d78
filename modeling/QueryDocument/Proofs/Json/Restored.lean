import QueryDocument.Proofs.Construction.Rebuild
import QueryDocument.Proofs.Document.Finite
import QueryDocument.Proofs.Json.Members
import QueryDocument.Proofs.Json.Sound

/-!
Reading back the JSON form of values and of what is below an operation. A float that is not finite
is written as null and refused; what has no such float is read as it was.
-/
namespace QueryDocument

open Json

namespace Value

/-- An integer value is in the range of its kind. -/
theorem read_integer (n : Int64) (s : Strictness) :
    (Json.number (some (.integer n.toInt))).read s .integer = .ok n := by
  have hlo := n.minValue_le_toInt
  have hhi := n.toInt_le
  change (if _ then _ else _) = _
  rw [if_pos ⟨hlo, hhi⟩, Int64.ofInt_toInt]

/-- A float that is not finite is written as null, which is read as no float. -/
theorem read_ofFloat (x : Binary64) (s : Strictness) :
    (ofFloat x).read s .float = onlyIf x.isFinite x := by
  unfold ofFloat
  cases x.isFinite <;> rfl

theorem read_items {vs : List Value} {s : Strictness}
    (h : ∀ v ∈ vs, v.toJson.read s .value = onlyIf v.isFinite v) :
    (Json.array (itemsToJson vs)).read s (.list .value) = onlyIf (itemsFinite vs) vs := by
  rw [itemsToJson_eq_map, itemsFinite_eq_all]
  exact read_map h

/-- An object value has each key once, so that no value is replaced by a later one. -/
theorem read_fields {fs : List (String × Value)} (hd : Keyed.Distinct fs) {s : Strictness}
    (h : ∀ f ∈ fs, f.2.toJson.read s .value = onlyIf f.2.isFinite f.2) :
    (Json.object (fieldsToJson fs)).read s (.keyed .value) = onlyIf (fieldsFinite fs) fs := by
  rw [fieldsToJson_eq_map, fieldsFinite_eq_all]
  exact read_keyed hd h

mutual
/-- By recursion over the value. One float that is not finite keeps the whole from being read
back. -/
theorem read_toJson : (v : Value) → v.Distinct → ∀ s, v.toJson.read s .value = onlyIf v.isFinite v
  | .bool _, _, _ => rfl
  | .enum _, _, _ => rfl
  | .float x, _, s => by
    have hread : (Value.float x).toJson.read s .value = .float <$> (ofFloat x).read s .float := rfl
    rw [hread, read_ofFloat, map_onlyIf, isFinite]
  | .int n, _, s => by
    have hread : (Value.int n).toJson.read s .value =
        .int <$> (Json.number (some (.integer n.toInt))).read s .integer := rfl
    rw [hread, read_integer]
    rfl
  | .list items, h, s => by
    have hread : (Value.list items).toJson.read s .value =
        .list <$> (Json.array (itemsToJson items)).read s (.list .value) := rfl
    rw [hread, read_items (readItems_toJson items h s), map_onlyIf, isFinite]
  | .null, _, _ => rfl
  | .object fields, h, s => by
    have hread : (Value.object fields).toJson.read s .value =
        .object <$> (Json.object (fieldsToJson fields)).read s (.keyed .value) := rfl
    rw [hread, read_fields h.1 (readFields_toJson fields h.2 s), map_onlyIf, isFinite]
  | .string _, _, _ => rfl
  | .var _, _, _ => rfl

theorem readItems_toJson : (vs : List Value) → DistinctItems vs → ∀ s, ∀ v ∈ vs,
    v.toJson.read s .value = onlyIf v.isFinite v
  | [], _, _ => by simp
  | v :: vs, h, s =>
    List.forall_mem_cons.2 ⟨read_toJson v h.1 s, readItems_toJson vs h.2 s⟩

theorem readFields_toJson : (fs : List (String × Value)) → DistinctFields fs → ∀ s, ∀ f ∈ fs,
    f.2.toJson.read s .value = onlyIf f.2.isFinite f.2
  | [], _, _ => by simp
  | (_, v) :: fs, h, s =>
    List.forall_mem_cons.2 ⟨read_toJson v h.1 s, readFields_toJson fs h.2 s⟩
end

/-- Even the null value is written as an object that tells its kind. -/
theorem toJson_ne_null (v : Value) : v.toJson ≠ .null := by
  cases v <;> exact nofun

end Value

theorem Arguments.read_toJson {args : Arguments} (h : args.Distinct) (s : Strictness) :
    (Json.object (Value.fieldsToJson args)).read s (.keyed .value) =
      onlyIf (Value.fieldsFinite args) args :=
  Value.read_fields h.keys (Value.readFields_toJson args h.values s)

/-- The checks of the name and the arguments are passed again. -/
theorem Directive.read_toJson {d : Directive} (h : d.WellFormed) (s : Strictness) :
    d.toJson.read s .directive = onlyIf d.isFinite d := by
  have hargs := Arguments.read_toJson h.arguments.toDistinct s
  have hstruct := (Held.cons "arguments" hargs (.cons "name" (read_text d.name s) .nil)).struct
    (by decide)
  change Layer.toDirective (recordLayer _ s) = _
  rw [Layer.toDirective, hstruct]
  refine (onlyIf_bind (q := true) (b := d) ?_).trans ?_
  · exact congrArg Layer.built (withArguments_of_wellFormed h)
  · simp [isFinite]

theorem read_directives {ds : List Directive} (h : ∀ d ∈ ds, d.WellFormed) (s : Strictness) :
    (directivesToJson ds).read s (.list .directive) = onlyIf (ds.all Directive.isFinite) ds :=
  read_map fun d hd => Directive.read_toJson (h d hd) s

theorem read_texts (o : Option String) (s : Strictness) :
    (Json.ofOption .text o).read s (.optional .text) = onlyIf true o := by
  cases o <;> rfl

/-- A default of null is not written as null, and so is told from no default. -/
theorem read_default {o : Option Value} (h : ∀ v ∈ o, v.Distinct) (s : Strictness) :
    (Json.ofOption Value.toJson o).read s (.optional .value) = onlyIf (o.all Value.isFinite) o :=
  read_ofOption .value fun v hv => ⟨Value.toJson_ne_null v, Value.read_toJson v (h v hv) s⟩

theorem VariableDefinition.read_toJson {d : VariableDefinition} (h : d.WellFormed)
    (s : Strictness) : d.toJson.read s .variableDefinition = onlyIf d.isFinite d := by
  have hstruct := (Held.cons "default_value" (read_default h.default s)
    (.cons "directives" (read_directives h.directives s)
      (.cons "type_annotation" (read_text d.type s) .nil))).struct (by decide)
  have hnew : new d.type = .ok { type := d.type } := (new_ok_iff _ _).2 ⟨rfl, h.typed⟩
  change Layer.toVariableDefinition (recordLayer _ s) = _
  rw [Layer.toVariableDefinition, hstruct]
  refine (onlyIf_bind (q := true) (b := d) ?_).trans ?_
  · dsimp only
    rw [hnew]
    rfl
  · simp [isFinite]

theorem FragmentSpread.read_members {x : FragmentSpread} (h : x.WellFormed) (s : Strictness) :
    (Json.record x.members).read s .fragmentSpread = onlyIf x.isFinite x := by
  have hstruct := (Held.cons "directives" (read_directives h.directives s)
    (.cons "name" (read_text x.name s) .nil)).struct (by decide)
  change Layer.toFragmentSpread (recordLayer [("directives", _), ("name", _)] s) = _
  rw [Layer.toFragmentSpread, hstruct]
  refine (onlyIf_bind (q := true) (b := x) ?_).trans ?_
  · dsimp only
    rw [new_of_ne h.named]
    rfl
  · simp [isFinite]

/-- A field is read if its selections are. -/
theorem Field.read_of_selections {name : String} {label : Option String} {args : Arguments}
    {ds : List Directive} {ss : List Selection} {s : Strictness}
    (h : Field.WellFormed ⟨name, label, args, ds, ss⟩)
    (hss : (Json.array (Selection.allToJson ss)).read s (.list .selection) =
      onlyIf (Selection.allFinite ss) ss) :
    (Json.record (Field.members ⟨name, label, args, ds, ss⟩)).read s .field =
      onlyIf (Field.isFinite ⟨name, label, args, ds, ss⟩) ⟨name, label, args, ds, ss⟩ := by
  obtain ⟨hname, hlabel, hargs, hds, -⟩ := h
  have hstruct := (Held.cons "alias" (read_texts label s)
    (.cons "arguments" (Arguments.read_toJson hargs.toDistinct s)
      (.cons "directives" (read_directives hds s)
        (.cons "name" (read_text name s) (.cons "selection_set" hss .nil))))).struct (by decide)
  change Layer.toField (recordLayer [("alias", _), ("arguments", _), ("directives", _),
    ("name", _), ("selection_set", _)] s) = _
  rw [Layer.toField, hstruct]
  refine (onlyIf_bind (q := true) (b := ⟨name, label, args, ds, ss⟩) ?_).trans ?_
  · dsimp only
    have hmade (f : Field) := Change.made_eq_ok_iff.2 (Field.setArguments_of_wellFormed hargs f)
    rw [Field.new_of_ne hname]
    cases label with
    | none =>
      simp only [Outcome.ok_bind, hmade]
      rfl
    | some text =>
      have htext : text ≠ "" := fun ht => hlabel (congrArg some ht)
      simp only [Outcome.ok_bind, Change.made_eq_ok_iff.2 (Field.setLabel_of_ne htext _), hmade]
      rfl
  · simp [Field.isFinite, Bool.and_assoc]

theorem InlineFragment.read_of_selections {type : Option String} {ds : List Directive}
    {ss : List Selection} {s : Strictness} (h : InlineFragment.WellFormed ⟨type, ds, ss⟩)
    (hss : (Json.array (Selection.allToJson ss)).read s (.list .selection) =
      onlyIf (Selection.allFinite ss) ss) :
    (Json.record (InlineFragment.members ⟨type, ds, ss⟩)).read s .inlineFragment =
      onlyIf (InlineFragment.isFinite ⟨type, ds, ss⟩) ⟨type, ds, ss⟩ := by
  obtain ⟨htype, hds, hne, -⟩ := h
  have hstruct := (Held.cons "directives" (read_directives hds s)
    (.cons "selection_set" hss (.cons "type_condition" (read_texts type s) .nil))).struct
    (by decide)
  change Layer.toInlineFragment (recordLayer [("directives", _), ("selection_set", _),
    ("type_condition", _)] s) = _
  rw [Layer.toInlineFragment, hstruct]
  refine (onlyIf_bind (q := true) (b := ⟨type, ds, ss⟩) ?_).trans ?_
  · dsimp only
    rw [InlineFragment.new_of_ne htype, InlineFragment.close_of_ne hne]
    rfl
  · simp [InlineFragment.isFinite]

namespace Json

variable {tag : String} {members : List (String × Json)}

/-- The tag stands in front and is read by its name. -/
theorem tag_record (hn : ∀ m ∈ members, m.1 ≠ "node") (hs : ∀ m ∈ members, m.2.Sound)
    (s : Strictness) : (recordLayer (("node", .text tag) :: members) s).tag = .ok (.name tag) := by
  have hcheck : (recordLayer (("node", .text tag) :: members) s).check = .ok () :=
    read_sound _ (sound_taggedNode hs tag) s
  have hfilter : ((("node", text tag) :: members).map fun m => (some m.1, m.2.read s)).filter
      (fun m => m.1 == some "node") = [(some "node", (text tag).read s)] := by
    rw [List.map_cons, List.filter_cons_of_pos rfl, List.filter_eq_nil_iff.2]
    intro m hm
    obtain ⟨m', hm', rfl⟩ := List.mem_map.1 hm
    simpa using hn m' hm'
  rw [recordLayer_eq] at hcheck ⊢
  unfold Layer.tag
  rw [hcheck, Outcome.ok_bind]
  dsimp only
  rw [hfilter]
  rfl

/-- Behind the tag is what the node would be by itself. -/
theorem attributes_record (hn : ∀ m ∈ members, m.1 ≠ "node") (s : Strictness) :
    (recordLayer (("node", .text tag) :: members) s).attributes = recordLayer members s := by
  rw [recordLayer_eq, recordLayer_eq, Layer.attributes, List.map_cons,
    List.filter_cons_of_neg (by simp), List.filter_eq_self.2]
  intro m hm
  obtain ⟨m', hm', rfl⟩ := List.mem_map.1 hm
  simpa using hn m' hm'

/-- A selection is read by the kind that its tag tells, leniently. -/
theorem read_selection (hn : ∀ m ∈ members, m.1 ≠ "node") (hs : ∀ m ∈ members, m.2.Sound)
    (s : Strictness) : (taggedNode tag members).read s .selection =
      match (Tag.name tag).among? ["field", "fragment_spread", "inline_fragment"] with
      | some "field" => .field <$> (record members).read .lenient .field
      | some "fragment_spread" => .spread <$> (record members).read .lenient .fragmentSpread
      | some "inline_fragment" =>
        .inlineFragment <$> (record members).read .lenient .inlineFragment
      | _ => .ok .unknown := by
  change Layer.toSelection (recordLayer (("node", .text tag) :: members) s)
    (recordLayer (("node", .text tag) :: members) .lenient) = _
  rw [Layer.toSelection, tag_record hn hs, attributes_record hn]
  rfl

/-- The tag decides what the other members are read as. -/
theorem read_definition (hn : ∀ m ∈ members, m.1 ≠ "node") (hs : ∀ m ∈ members, m.2.Sound)
    (s : Strictness) : (taggedNode tag members).read s .definition =
      match (Tag.name tag).among? ["fragment", "operation"] with
      | some "fragment" => .fragment <$> (record members).read .lenient .fragmentDefinition
      | some "operation" => .operation <$> (record members).read .lenient .operation
      | _ => .ok .unknown := by
  change Layer.toDefinition (recordLayer (("node", .text tag) :: members) s)
    (recordLayer (("node", .text tag) :: members) .lenient) = _
  rw [Layer.toDefinition, tag_record hn hs, attributes_record hn]
  rfl

end Json

theorem read_selections {ss : List Selection} {s : Strictness}
    (h : ∀ x ∈ ss, x.toJson.read s .selection = onlyIf x.isFinite x) :
    (Json.array (Selection.allToJson ss)).read s (.list .selection) =
      onlyIf (Selection.allFinite ss) ss := by
  rw [Selection.allToJson_eq_map, Selection.allFinite_eq_all]
  exact read_map h

theorem FragmentSpread.keys_ne_node (x : FragmentSpread) : ∀ m ∈ x.members, m.1 ≠ "node" := by
  simp [members]

theorem Field.keys_ne_node (f : Field) : ∀ m ∈ f.members, m.1 ≠ "node" := by
  obtain ⟨name, label, args, ds, ss⟩ := f
  simp [members]

theorem InlineFragment.keys_ne_node (f : InlineFragment) : ∀ m ∈ f.members, m.1 ≠ "node" := by
  obtain ⟨type, ds, ss⟩ := f
  simp [members]

mutual
/-- By recursion over the tree, along with the other kinds of selections. -/
theorem Field.read_members : (f : Field) → f.WellFormed → ∀ s,
    (Json.record f.members).read s .field = onlyIf f.isFinite f
  | ⟨_, _, _, _, ss⟩, h, s =>
    Field.read_of_selections h (read_selections (Selection.readAll_toJson ss h.2.2.2.2 s))

theorem InlineFragment.read_members : (f : InlineFragment) → f.WellFormed → ∀ s,
    (Json.record f.members).read s .inlineFragment = onlyIf f.isFinite f
  | ⟨_, _, ss⟩, h, s =>
    InlineFragment.read_of_selections h
      (read_selections (Selection.readAll_toJson ss h.2.2.2 s))

/-- An unknown selection is written and read back as unknown. -/
theorem Selection.read_toJson : (x : Selection) → x.WellFormed → ∀ s,
    x.toJson.read s .selection = onlyIf x.isFinite x
  | .field f, h, s => by
    have hread : (Selection.field f).toJson.read s .selection =
        .field <$> (Json.record f.members).read .lenient .field :=
      read_selection f.keys_ne_node f.sound_members s
    rw [hread, Field.read_members f h, map_onlyIf, Selection.isFinite]
  | .spread x, h, s => by
    have hread : (Selection.spread x).toJson.read s .selection =
        .spread <$> (Json.record x.members).read .lenient .fragmentSpread :=
      read_selection x.keys_ne_node x.sound_members s
    rw [hread, FragmentSpread.read_members h, map_onlyIf, Selection.isFinite]
  | .inlineFragment f, h, s => by
    have hread : (Selection.inlineFragment f).toJson.read s .selection =
        .inlineFragment <$> (Json.record f.members).read .lenient .inlineFragment :=
      read_selection f.keys_ne_node f.sound_members s
    rw [hread, InlineFragment.read_members f h, map_onlyIf, Selection.isFinite]
  | .unknown, _, s => read_selection (by simp) (by simp) s

theorem Selection.readAll_toJson : (ss : List Selection) → Selection.WellFormedAll ss → ∀ s,
    ∀ x ∈ ss, x.toJson.read s .selection = onlyIf x.isFinite x
  | [], _, _ => by simp
  | x :: xs, h, s =>
    List.forall_mem_cons.2 ⟨Selection.read_toJson x h.1 s, Selection.readAll_toJson xs h.2 s⟩
end

end QueryDocument
