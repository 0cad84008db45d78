import QueryDocument.Proofs.Json.Checked
import QueryDocument.Proofs.Json.Restored

/-!
Which documents are accepted. A tree that has the parts a document must have is read if the rules
of building hold wherever a known node stands, and what is read is the tree as it was given but for
what those rules make of it. Every other such tree is refused by a rule.
-/
namespace QueryDocument
namespace Json

/-- The tree as one layer, with its parts as they are read. -/
def layer : Json → Strictness → Layer
  | .null, _ => .null
  | .bool b, _ => .bool b
  | .number n, _ => .number n
  | .string text, _ => .string text
  | .array items, s => .array (readItems items s)
  | .object members, s => .object (readMembers members s)
  | .broken, _ => .broken

/-- What is read of a tree depends on its layer, and for a node that tells its kind also on the
layer as it is read leniently. -/
theorem read_eq_layer (j : Json) (s : Strictness) :
    j.read s = (j.layer s).read s (j.layer .lenient) := by
  cases j <;> rfl

/-- A whole tree passes the check that goes through an object before its kind is known. -/
theorem check_layer {j : Json} (h : j.Whole) (s : Strictness) : (j.layer s).check = .ok () := by
  have hr := (read_whole j h s).1
  rw [read_eq_layer] at hr
  exact hr

theorem filter_eq_singleton {α : Type} {ms : List (Option String × α)}
    (hd : (ms.map Prod.fst).Nodup) {k : String} {a : α} (hm : (some k, a) ∈ ms) :
    (ms.filter fun m => m.1 == some k) = [(some k, a)] := by
  induction ms with
  | nil => cases hm
  | cons m ms ih =>
    obtain ⟨hnew, hd⟩ := List.nodup_cons.1 hd
    by_cases hk : m.1 = some k
    · have hne : ∀ x ∈ ms, ¬ (x.1 == some k) = true := by
        intro x hx he
        rw [hk, ← eq_of_beq he] at hnew
        exact hnew (List.mem_map_of_mem hx)
      have he : m = (some k, a) := by
        rcases List.mem_cons.1 hm with he | hm
        · exact he.symm
        · exact absurd (beq_self_eq_true (some k)) (hne _ hm)
      rw [List.filter_cons_of_pos (by rw [hk]; exact beq_self_eq_true _),
        List.filter_eq_nil_iff.2 hne, he]
    · rw [List.filter_cons_of_neg (by simpa using hk)]
      refine ih hd ?_
      rcases List.mem_cons.1 hm with he | hm
      · exact absurd (congrArg Prod.fst he).symm hk
      · exact hm

/-- A kind may be told by a name, or leniently by its place. -/
theorem DenotesTag.read {s : Strictness} {j : Json} {tag : Tag} (h : DenotesTag s j tag) :
    j.read s .tag = .ok tag := by
  cases h with
  | name text => rfl
  | place hn =>
    change (if _ then _ else _) = _
    rw [if_pos (by simpa using hn)]
    rfl

/-- An integer that stands where a float is asked for is rounded to the nearest one. -/
theorem read_rounded (s : Strictness) {n : Int} {x : Binary64}
    (h : Binary64.ofDecimal? (n < 0) ⟨n.natAbs, 0⟩ = some x) :
    (Json.number (some (.integer n))).read s .float = .ok x := by
  rw [read_eq_layer, layer]
  change Layer.toFloat _ = _
  rw [Layer.toFloat, h]

/-- The tag is found wherever it stands, and the attributes are what the other members hold. -/
theorem Tagged.read {s : Strictness} {j body : Json} {tag : Tag} (h : Tagged s j tag body)
    (hw : j.Whole) : (j.layer s).tag = .ok tag ∧
      (j.layer .lenient).attributes = body.layer .lenient ∧ body.Whole := by
  have hcheck := check_layer hw s
  unfold Layer.tag
  rw [hcheck, Outcome.ok_bind]
  cases h with
  | @object ms t _ hd hm ht =>
    refine ⟨?_, ?_, ?_⟩
    · have hmem : (some "node", t.read s) ∈ readMembers ms s := by
        rw [readMembers_eq_map]
        exact List.mem_map_of_mem hm
      have hkeys : ((readMembers ms s).map Prod.fst).Nodup := by
        rwa [readMembers_eq_map, List.map_map]
      simp only [layer, filter_eq_singleton hkeys hmem]
      exact ht.read
    · simp only [layer, Layer.attributes, readMembers_eq_map, List.filter_map]
      rfl
    · exact (wholeMembers_iff _).2 fun m hm =>
        (wholeMembers_iff ms).1 hw m (List.mem_filter.1 hm).1
  | array js ht => exact ⟨ht.read, rfl, hw.2⟩

/-- A tagged tree is read by the kind that its tag tells, leniently and without the tag. -/
theorem Tagged.read_selection {s : Strictness} {j body : Json} {tag : Tag}
    (h : Tagged s j tag body) (hw : j.Whole) : j.read s .selection =
      match tag.among? selectionKinds with
      | some "field" => .field <$> body.read .lenient .field
      | some "fragment_spread" => .spread <$> body.read .lenient .fragmentSpread
      | some "inline_fragment" => .inlineFragment <$> body.read .lenient .inlineFragment
      | _ => (body.layer .lenient).discard .unknown := by
  obtain ⟨htag, hbody, -⟩ := h.read hw
  rw [read_eq_layer, read_eq_layer body]
  change Layer.toSelection _ _ = _
  rw [Layer.toSelection, htag, hbody]
  rfl

/-- Another kind than these two is unknown, and of what it holds no more is asked than that an
array has nothing behind its tag. -/
theorem Tagged.read_definition {s : Strictness} {j body : Json} {tag : Tag}
    (h : Tagged s j tag body) (hw : j.Whole) : j.read s .definition =
      match tag.among? definitionKinds with
      | some "fragment" => .fragment <$> body.read .lenient .fragmentDefinition
      | some "operation" => .operation <$> body.read .lenient .operation
      | _ => (body.layer .lenient).discard .unknown := by
  obtain ⟨htag, hbody, -⟩ := h.read hw
  rw [read_eq_layer, read_eq_layer body]
  change Layer.toDefinition _ _ = _
  rw [Layer.toDefinition, htag, hbody]
  rfl

theorem Discardable.discard {α : Type} {body : Json} (h : Discardable body) (s : Strictness)
    (a : α) : (body.layer s).discard a = .ok a := by
  cases h <;> rfl

section Readings

variable {s : Strictness} {ns : List (String × Json)}

/-- The members of an object as they are read. -/
def readings (ns : List (String × Json)) (s : Strictness) : List (String × Reading) :=
  ns.map fun m => (m.1, m.2.read s)

theorem exists_record {ms : List (Option String × Json)} (h : WholeMembers ms) :
    ∃ ns : List (String × Json), ms = ns.map fun m => (some m.1, m.2) := by
  refine ⟨ms.map fun m => (m.1.getD "", m.2), ?_⟩
  rw [List.map_map]
  refine ((List.map_congr_left fun m hm => ?_).trans (List.map_id ms)).symm
  obtain ⟨k, hk⟩ := Option.isSome_iff_exists.1 ((wholeMembers_iff ms).1 h m hm).1
  simp [hk, Prod.ext_iff]

theorem readMembers_record (ns : List (String × Json)) (s : Strictness) :
    readMembers (ns.map fun m => (some m.1, m.2)) s = Schema.named (readings ns s) := by
  rw [readMembers_eq_map, Schema.named, readings, List.map_map, List.map_map]
  rfl

/-- A member that no slot asks for is skipped, whatever it holds. -/
theorem readings_skipped (h : WholeMembers (ns.map fun m => (some m.1, m.2))) :
    ∀ m ∈ readings ns s, m.2 .skipped = .ok () := by
  intro m hm
  have hmem : (some m.1, m.2) ∈ readMembers (ns.map fun m => (some m.1, m.2)) s := by
    rw [readMembers_record]
    exact List.mem_map_of_mem hm
  exact (readMembers_whole _ h s _ hmem).2.2

theorem keys_readings (ns : List (String × Json)) (s : Strictness) :
    (readings ns s).map Prod.fst = ns.map Prod.fst := by
  rw [readings, List.map_map]
  rfl

theorem keys_record (ns : List (String × Json)) :
    (ns.map fun m => ((some m.1, m.2) : Option String × Json)).map Prod.fst =
      (ns.map Prod.fst).map some := by
  rw [List.map_map, List.map_map]
  rfl

theorem mem_readings {k : String} {j : Json}
    (h : (some k, j) ∈ ns.map fun m => ((some m.1, m.2) : Option String × Json)) :
    (k, j.read s) ∈ readings ns s := by
  obtain ⟨m, hm, he⟩ := List.mem_map.1 h
  cases he
  exact List.mem_map.2 ⟨m, hm, rfl⟩

end Readings

mutual
/-- By recursion over the tree, with a case for each form in which a slot may be filled. -/
theorem Denotes.read {s : Strictness} {slot : Slot} {j : Json} {c : slot.Content} :
    Denotes s slot j c → j.Whole → Obeys (j.read s slot) (slot.Lawful c) (slot.normal c)
  | .null _, _ => .ok _
  | .emptyObject, _ => .ok _
  | .bool _ _, _ => .ok _
  | .integer _ n, _ => by
    rw [Value.read_integer]
    exact .ok n
  | .float _ _, _ => .ok _
  | .rounded s h, _ => by
    rw [read_rounded s h]
    exact .ok _
  | .text _ _, _ => .ok _
  | .nullValue _, _ => .ok _
  | .nullCase h, hw => (Denotes.read h hw.2.1).map fun _ => Value.null
  | .boolCase h, hw => (Denotes.read h hw.2.1).map Value.bool
  | .enumCase h, hw => (Denotes.read h hw.2.1).map Value.enum
  | .floatCase h, hw => (Denotes.read h hw.2.1).map Value.float
  | .intCase h, hw => (Denotes.read h hw.2.1).map Value.int
  -- There are no rules for what stands in a value, so none is left to check.
  | .listCase h, hw => by
    have hread := (Denotes.read h hw.2.1).map Value.list
    rw [Slot.Inert.value.list.normal] at hread
    exact hread.congr (iff_true_intro (Slot.Inert.value.list.lawful _))
  | .objectCase h, hw => by
    have hread := (Denotes.read h hw.2.1).map Value.object
    rw [Slot.Inert.value.keyed.normal] at hread
    exact hread.congr (iff_true_intro (Slot.Inert.value.keyed.lawful _))
  | .stringCase h, hw => (Denotes.read h hw.2.1).map Value.string
  | .varCase h, hw => (Denotes.read h hw.2.1).map Value.var
  | .kind _ k, _ => by cases k <;> exact .ok _
  | .kindCase k h, hw => by
    have hread := (Denotes.read h hw.2.1).map fun _ => k
    cases k <;> exact hread
  | .absent _ slot, _ =>
    (Obeys.ok (none : Option slot.Content)).congr (by simp [slot.lawful_optional])
  | .present hn h, hw => by
    have hread := Denotes.read h hw
    rw [read_optional hn]
    exact (hread.map some).congr (by simp [Slot.lawful_optional])
  | .list h, hw => by
    rw [read_list]
    exact DenotesItems.read h hw
  | .keyed hd h, hw => DenotesEntries.read h hw [] hd
  -- A record is read first, and what it is made into has rules of its own.
  | .directive h, hw => by
    have hstruct := DenotesRecord.read h hw (by decide)
    rw [Schema.normal_directive] at hstruct
    rw [read_eq_layer]
    exact (Layer.toDirective_obeys hstruct).congr (Schema.lawful_directive _ _)
  | .variableDefinition h, hw => by
    have hstruct := DenotesRecord.read h hw (by decide)
    rw [Schema.normal_variableDefinition] at hstruct
    rw [read_eq_layer]
    exact (Layer.toVariableDefinition_obeys hstruct).congr
      (Schema.lawful_variableDefinition _ _ _)
  | .fragmentSpread h, hw => by
    have hstruct := DenotesRecord.read h hw (by decide)
    rw [Schema.normal_fragmentSpread] at hstruct
    rw [read_eq_layer]
    exact (Layer.toFragmentSpread_obeys hstruct).congr (Schema.lawful_fragmentSpread _ _)
  | .field h, hw => by
    have hstruct := DenotesRecord.read h hw (by decide)
    rw [Schema.normal_field] at hstruct
    rw [read_eq_layer, Slot.normal, Field.normalized, Selection.normalizedAll_eq_map]
    exact (Layer.toField_obeys hstruct).congr (Schema.lawful_field _ _ _ _ _)
  | .inlineFragment h, hw => by
    have hstruct := DenotesRecord.read h hw (by decide)
    rw [Schema.normal_inlineFragment] at hstruct
    rw [read_eq_layer, Slot.normal, InlineFragment.normalized, Selection.normalizedAll_eq_map]
    exact (Layer.toInlineFragment_obeys hstruct).congr (Schema.lawful_inlineFragment _ _ _)
  | .fragmentDefinition h, hw => by
    have hstruct := DenotesRecord.read h hw (by decide)
    rw [Schema.normal_fragmentDefinition] at hstruct
    rw [read_eq_layer]
    exact (Layer.toFragmentDefinition_obeys hstruct).congr
      (Schema.lawful_fragmentDefinition _ _ _ _)
  | .operation h, hw => by
    have hstruct := DenotesRecord.read h hw (by decide)
    rw [Schema.normal_operation] at hstruct
    rw [read_eq_layer]
    exact (Layer.toOperation_obeys hstruct).congr (Schema.lawful_operation _ _ _ _ _)
  | .document h, hw => by
    have hstruct := DenotesRecord.read h hw (by decide)
    rw [Schema.normal_document] at hstruct
    rw [read_eq_layer]
    exact (Layer.toDocument_obeys hstruct).congr (Schema.lawful_document _)
  -- The tag decides which case is read, from what stands beside or behind it.
  | .fieldNode ht hk h, hw => by
    rw [ht.read_selection hw, hk]
    exact (Denotes.read h (ht.read hw).2.2).map Selection.field
  | .spreadNode ht hk h, hw => by
    rw [ht.read_selection hw, hk]
    exact (Denotes.read h (ht.read hw).2.2).map Selection.spread
  | .inlineFragmentNode ht hk h, hw => by
    rw [ht.read_selection hw, hk]
    exact (Denotes.read h (ht.read hw).2.2).map Selection.inlineFragment
  | .unknownSelection ht hk hb, hw => by
    rw [ht.read_selection hw, hk]
    exact hb.discard .lenient Selection.unknown ▸ .ok _
  | .fragmentNode ht hk h, hw => by
    rw [ht.read_definition hw, hk]
    exact (Denotes.read h (ht.read hw).2.2).map Definition.fragment
  | .operationNode ht hk h, hw => by
    rw [ht.read_definition hw, hk]
    exact (Denotes.read h (ht.read hw).2.2).map Definition.operation
  | .unknownDefinition ht hk hb, hw => by
    rw [ht.read_definition hw, hk]
    exact hb.discard .lenient Definition.unknown ▸ .ok _

theorem DenotesItems.read {s : Strictness} {slot : Slot} {js : List Json}
    {cs : List slot.Content} : DenotesItems s slot js cs → WholeItems js →
      Obeys (js.mapM fun j => j.read s slot) (∀ c ∈ cs, slot.Lawful c) (cs.map slot.normal)
  | .nil _ slot, _ => (Obeys.ok ([] : List slot.Content)).congr (by simp)
  | .cons h hs, hw => by
    have hread := Denotes.read h hw.1
    have hrest := DenotesItems.read hs hw.2
    rw [List.mapM_cons]
    exact (hread.bind (hrest.pure _)).congr (by simp)

/-- A map is filled in the order of the text. Its keys are distinct here, so that no value is
replaced. -/
theorem DenotesEntries.read {s : Strictness} {slot : Slot} {ms : List (Option String × Json)}
    {es : Keyed slot.Content} : DenotesEntries s slot ms es → WholeMembers ms →
      ∀ before : Keyed slot.Content, Keyed.Distinct (before ++ es) →
        Obeys (Layer.entriesOf slot (readMembers ms s) before) (∀ e ∈ es, slot.Lawful e.2)
          (before ++ es.map fun e => (e.1, slot.normal e.2))
  | .nil _ _, _, before, _ => by
    rw [List.map_nil, List.append_nil]
    exact (Obeys.ok before).congr (by simp)
  | .cons k (c := c) h hs, hw, before, hd => by
    have hread := Denotes.read h hw.2.1
    have hrest := DenotesEntries.read hs hw.2.2 (before ++ [(k, slot.normal c)])
      (by simpa [Keyed.Distinct, Keyed.keys] using hd)
    rw [readMembers, Layer.entriesOf]
    have hall := hread.bind (f := fun c => Layer.entriesOf slot _ (Keyed.insert k c before)) (by
      rw [Keyed.insert_of_notMem hd.notMem_of_append]
      exact hrest)
    rw [List.append_assoc] at hall
    exact hall.congr (by simp)

/-- An object may hold its members in any order, an array must hold them in order. -/
theorem DenotesRecord.read {s : Strictness} {schema : Schema} {j : Json} {cs : schema.Contents} :
    DenotesRecord s schema j cs → j.Whole → (schema.map Prod.fst).Nodup →
      Obeys ((j.layer s).struct schema) (Schema.Contents.Lawful schema cs)
        (Schema.Contents.normal schema cs)
  | .object hd h, hw, hk => by
    obtain ⟨ns, hns⟩ := exists_record hw
    have hnodup : (ns.map Prod.fst).Nodup := by
      rw [hns, keys_record] at hd
      exact hd.of_map some
    obtain ⟨d, hput, hcomplete⟩ := DenotesMembers.read h ns hns hw hnodup hk
    subst hns
    change Obeys (schema.putAll (readMembers _ s) _ >>= schema.complete) _ _
    rw [readMembers_record]
    refine (hput.bind ?_).congr (and_iff_left trivial)
    rw [hcomplete]
    exact .ok _
  | .array h, hw, _ => DenotesInOrder.read h hw

/-- A member of another name is passed over, and a slot that may be left out is completed at the
end. -/
theorem DenotesMembers.read {s : Strictness} {schema : Schema}
    {ms : List (Option String × Json)} {cs : schema.Contents} :
    DenotesMembers s schema ms cs → ∀ ns : List (String × Json),
      ms = ns.map (fun m => (some m.1, m.2)) → WholeMembers ms → (ns.map Prod.fst).Nodup →
      (schema.map Prod.fst).Nodup →
        ∃ d, Obeys (schema.putAll (Schema.named (readings ns s)) schema.noDraft)
          (Schema.Contents.Lawful schema cs) d ∧
            schema.complete d = .ok (Schema.Contents.normal schema cs)
  | .nil _ _, ns, hns, hw, _, _ => by
    subst hns
    refine ⟨(), ?_, rfl⟩
    rw [Schema.putAll_of_foreign (by simp) (readings_skipped hw)]
    exact .ok _
  | @DenotesMembers.given _ _ slot _ _ _ c _ hm h hs, ns, hns, hw, hd, hk => by
    have hread := Denotes.read h ((wholeMembers_iff _).1 hw _ hm).2
    obtain ⟨hnew, hk⟩ := List.nodup_cons.1 hk
    obtain ⟨d, hput, hcomplete⟩ := DenotesMembers.read hs ns hns hw hd hk
    subst hns
    refine ⟨(some (slot.normal c), d), ?_, ?_⟩
    · rw [← keys_readings] at hd
      exact Schema.putAll_obeys_cons hnew hd (readings_skipped hw) (mem_readings hm) hread hput
    · rw [Schema.complete_cons, Outcome.ok_bind, hcomplete]
      rfl
  -- No member fills the place, so it is still open when the object is completed.
  | .omitted (k := k) hm hs, ns, hns, hw, hd, hk => by
    obtain ⟨d, hput, hcomplete⟩ := DenotesMembers.read hs ns hns hw hd (List.nodup_cons.1 hk).2
    subst hns
    refine ⟨(none, d), ?_, ?_⟩
    · have hne : ∀ m ∈ readings ns s, m.1 ≠ k := by
        rintro m hmem rfl
        have hkey := List.mem_map_of_mem (f := Prod.fst) hmem
        rw [keys_readings] at hkey
        rw [keys_record] at hm
        exact hm (List.mem_map_of_mem hkey)
      rw [Schema.named, Schema.noDraft, Schema.putAll_cons_of_ne hne]
      exact (hput.map _).congr (by simp [Schema.Contents.Lawful, Slot.lawful_optional])
    · rw [Schema.complete_cons, Schema.missing, Outcome.ok_bind, hcomplete]
      rfl

theorem DenotesInOrder.read {s : Strictness} {schema : Schema} {js : List Json}
    {cs : schema.Contents} : DenotesInOrder s schema js cs → WholeItems js →
      Obeys (schema.inOrder (readItems js s)) (Schema.Contents.Lawful schema cs)
        (Schema.Contents.normal schema cs)
  | .nil _, _ => .ok _
  | .cons k h hs, hw =>
    (Denotes.read h hw.1).bind ((DenotesInOrder.read hs hw.2).pure _)
end

theorem filter_record_of_notMem {k : String} {ms : List (String × Json)}
    (hk : k ∉ ms.map Prod.fst) :
    (ms.map fun m => ((some m.1, m.2) : Option String × Json)).filter (fun m => m.1 != some k) =
      ms.map fun m => (some m.1, m.2) := by
  rw [List.filter_eq_self]
  intro m hm
  obtain ⟨m', hmem, rfl⟩ := List.mem_map.1 hm
  have hne : m'.1 ≠ k := fun he => hk (he ▸ List.mem_map_of_mem hmem)
  simpa using hne

/-- A written node has its tag in front. -/
theorem Tagged.of_taggedNode (s : Strictness) {tag : String} {ms : List (String × Json)}
    (hd : (ms.map Prod.fst).Nodup) (hnew : "node" ∉ ms.map Prod.fst) :
    Tagged s (taggedNode tag ms) (.name tag) (record ms) := by
  have hkeys : ((("node", text tag) :: ms).map Prod.fst).Nodup := List.nodup_cons.2 ⟨hnew, hd⟩
  have htagged : Tagged s (taggedNode tag ms) (.name tag) _ :=
    .object (by rw [keys_record]; exact hkeys.map (Option.some_injective _))
      List.mem_cons_self (.name s tag)
  rwa [List.map_cons, List.filter_cons_of_neg (by simp), filter_record_of_notMem hnew] at htagged

/-- Of the trees that have all the parts of a document exactly those are accepted which obey the
rules of building, and of these nothing is changed but what `Document.normalized` changes. The
others are refused by one of the rules. A text is read as its tree is. -/
theorem read_document_iff_lawful {j : Json} {d : Document} (hw : j.Whole)
    (hd : Denotes .strict .document j d) :
    ((∃ d', j.read .strict .document = .ok d') ↔ d.Lawful) ∧
      (d.Lawful → j.read .strict .document = .ok d.normalized) ∧
      (¬ d.Lawful → ∃ e, j.read .strict .document = .error (.invalid e)) ∧
      ∀ text, ofText text = (j, true) →
        decode .document text = j.read .strict .document := by
  have hread : Obeys (j.read .strict .document) d.Lawful d.normalized := hd.read hw
  refine ⟨hread.ok_iff, hread.accepts, fun hn => ?_, fun text ht => ?_⟩
  · obtain ⟨e, he, e', rfl⟩ := hread.refuses hn
    exact ⟨e', he⟩
  · have hdecode : decode .document text = (j.read .strict .document >>= pure) := by
      simp only [decode, ht, if_true]
    rw [hdecode, bind_pure]

/-- An inline fragment around a selection of no known kind. -/
def sampleFragment : List (String × Json) :=
  [("directives", .array []),
    ("selection_set", .array [taggedNode "later" [("name", text "")]]),
    ("type_condition", text "")]

/-- An operation with one variable under two spellings. -/
def sampleOperation : List (String × Json) :=
  [("directives", .array []), ("kind", text "Query"), ("name", .null),
    ("selection_set", .array [taggedNode "inline_fragment" sampleFragment]),
    ("variable_definitions", record [
      ("$a", record [("default_value", .null), ("directives", .array []),
        ("type_annotation", text "Int")]),
      ("a", record [("directives", .array []), ("type_annotation", text "ID")])])]

def sampleTree : Json :=
  record [("definitions", .array
    [taggedNode "operation" sampleOperation, taggedNode "extension" [("directives", .null)]])]

def sampleDocument : Document :=
  ⟨[.operation
      { kind := .query
        declared := [("$a", { type := "Int" }), ("a", { type := "ID" })]
        selections := [.inlineFragment
          { typeCondition := some "", selections := [.unknown] }] },
    .unknown]⟩

theorem sampleTree_denotes : Denotes .strict .document sampleTree sampleDocument := by
  have hnull (slot : Slot) : Denotes .lenient (.optional slot) .null none := .absent _ slot
  have hnone (slot : Slot) : Denotes .lenient (.list slot) (.array []) [] := .list (.nil _ slot)
  have hlater : Denotes .lenient .selection (taggedNode "later" [("name", text "")]) .unknown :=
    .unknownSelection (.of_taggedNode _ (by decide) (by decide)) (by decide) (.object _)
  have hfragment : Denotes .lenient .inlineFragment (record sampleFragment)
      { typeCondition := some "", selections := [.unknown] } := by
    refine .inlineFragment (.object (by decide) ?_)
    refine .given (.head _) (hnone _) (.given (.tail _ (.head _)) ?_ ?_)
    · exact .list (.cons hlater (.nil _ _))
    · exact .given (.tail _ (.tail _ (.head _))) (.present Json.noConfusion (.text _ _)) (.nil _ _)
  have hdollar : Denotes .lenient .variableDefinition
      (record [("default_value", .null), ("directives", .array []),
        ("type_annotation", text "Int")]) { type := "Int" } := by
    refine .variableDefinition (.object (by decide) ?_)
    refine .given (.head _) (hnull _) (.given (.tail _ (.head _)) (hnone _) ?_)
    exact .given (.tail _ (.tail _ (.head _))) (.text _ _) (.nil _ _)
  have hplain : Denotes .lenient .variableDefinition
      (record [("directives", .array []), ("type_annotation", text "ID")]) { type := "ID" } := by
    refine .variableDefinition (.object (by decide) (.omitted (by decide) ?_))
    exact .given (.head _) (hnone _) (.given (.tail _ (.head _)) (.text _ _) (.nil _ _))
  have hinline : Denotes .lenient .selection (taggedNode "inline_fragment" sampleFragment)
      (.inlineFragment { typeCondition := some "", selections := [.unknown] }) :=
    .inlineFragmentNode (.of_taggedNode _ (by decide) (by decide)) (by decide) hfragment
  have hoperation : Denotes .lenient .operation (record sampleOperation)
      { kind := .query
        declared := [("$a", { type := "Int" }), ("a", { type := "ID" })]
        selections := [.inlineFragment
          { typeCondition := some "", selections := [.unknown] }] } := by
    refine .operation (.object (by decide) (.given (.head _) (hnone _) ?_))
    refine .given (.tail _ (.head _)) (.kind _ .query) ?_
    refine .given (.tail _ (.tail _ (.head _))) (hnull _) ?_
    refine .given (.tail _ (.tail _ (.tail _ (.head _)))) (.list (.cons hinline (.nil _ _))) ?_
    refine .given (.tail _ (.tail _ (.tail _ (.tail _ (.head _))))) (.keyed ?_ ?_) (.nil _ _)
    · simp [Keyed.Distinct, Keyed.keys]
    · exact .cons _ hdollar (.cons _ hplain (.nil _ _))
  have hextension : Denotes .strict .definition
      (taggedNode "extension" [("directives", .null)]) .unknown :=
    .unknownDefinition (.of_taggedNode _ (by decide) (by decide)) (by decide) (.object _)
  refine .document (.object (by decide) (.given (.head _) (.list ?_) (.nil _ _)))
  refine .cons ?_ (.cons hextension (.nil _ _))
  exact .operationNode (.of_taggedNode _ (by decide) (by decide)) (by decide) hoperation

/-- The empty type condition is gone, and the later definition has the place of the earlier. -/
theorem read_document_iff_lawful_of_dollar :
    sampleTree.Whole ∧ Denotes .strict .document sampleTree sampleDocument ∧
      sampleTree.read .strict .document = .ok ⟨[.operation
        { kind := .query
          declared := [("a", { type := "ID" })]
          selections := [.inlineFragment { selections := [.unknown] }] },
      .unknown]⟩ := by
  have hw : sampleTree.Whole := by
    simp [sampleTree, sampleOperation, sampleFragment, record, taggedNode, text, Whole, WholeItems,
      WholeMembers]
  have hlawful : sampleDocument.Lawful := by
    refine List.forall_mem_cons.2 ⟨⟨by simp, by decide, ?_, by simp, ?_⟩, ?_⟩
    · have htyped {type : String} (ht : type ≠ "") : VariableDefinition.Lawful { type } :=
        ⟨ht, by simp⟩
      simp [htyped]
    · simp [Selection.Lawful, InlineFragment.Lawful, Selection.LawfulAll]
    · simp [Definition.Lawful]
  refine ⟨hw, sampleTree_denotes, ?_⟩
  exact (read_document_iff_lawful hw sampleTree_denotes).2.1 hlawful

end Json
end QueryDocument
