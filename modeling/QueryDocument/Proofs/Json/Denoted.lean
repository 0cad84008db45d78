import QueryDocument.Json.Decode
import QueryDocument.Proofs.Outcome
import QueryDocument.Json.Encode
import QueryDocument.Json.Layer
import QueryDocument.Proofs.Construction.WellFormed

/-!
What a JSON tree stands for, as far as the types of its parts go. `Denotes s slot j c` says that `j`
has everything that a tree in this place must have, no key twice in one object, and that `c` is what
it holds. The rules of building are not looked at, so `c` may break them anywhere, and below a tag
that names no known kind anything may stand.

A whole tree denotes something in every part, and may stand wherever a text is only looked through.
-/
namespace QueryDocument
namespace Json

mutual
/-- The tree ends nowhere early, and every literal in it denotes something. -/
def Whole : Json → Prop
  | .null | .bool _ => True
  | .number n => n.isSome
  | .string s => s.isSome
  | .array items => WholeItems items
  | .object members => WholeMembers members
  | .broken => False

def WholeItems : List Json → Prop
  | [] => True
  | j :: js => j.Whole ∧ WholeItems js

def WholeMembers : List (Option String × Json) → Prop
  | [] => True
  | (k, j) :: ms => k.isSome ∧ j.Whole ∧ WholeMembers ms
end

theorem wholeMembers_iff (ms : List (Option String × Json)) :
    WholeMembers ms ↔ ∀ m ∈ ms, m.1.isSome ∧ m.2.Whole := by
  induction ms with
  | nil => simp [WholeMembers]
  | cons m ms ih => simp only [WholeMembers, ih, List.forall_mem_cons, and_assoc]

mutual
/-- A whole tree may stand wherever its meaning does not matter. -/
theorem read_whole : (j : Json) → j.Whole → ∀ s,
    j.read s .sound = .ok () ∧ j.read s .skipped = .ok ()
  | .null, _, _ => ⟨rfl, rfl⟩
  | .bool _, _, _ => ⟨rfl, rfl⟩
  | .number (some _), _, _ => ⟨rfl, rfl⟩
  | .number none, h, _ => nomatch h
  | .string (some _), _, _ => ⟨rfl, rfl⟩
  | .string none, h, _ => nomatch h
  | .array js, h, s =>
    have hr := readItems_whole js h s
    ⟨Outcome.forM_ok fun r hm => (hr r hm).1, Outcome.forM_ok fun r hm => (hr r hm).2⟩
  | .object ms, h, s => by
    have hr := readMembers_whole ms h s
    refine ⟨Outcome.forM_ok fun m hm => ?_, Outcome.forM_ok fun m hm => (hr m hm).2.2⟩
    obtain ⟨k, r⟩ := m
    obtain ⟨hk, hsound, -⟩ := hr _ hm
    cases k with
    | none => cases hk
    | some k => exact hsound
  | .broken, h, _ => h.elim

theorem readItems_whole : (js : List Json) → WholeItems js → ∀ s, ∀ r ∈ readItems js s,
    r .sound = .ok () ∧ r .skipped = .ok ()
  | [], _, _ => by simp [readItems]
  | j :: js, h, s => List.forall_mem_cons.2 ⟨read_whole j h.1 s, readItems_whole js h.2 s⟩

theorem readMembers_whole : (ms : List (Option String × Json)) → WholeMembers ms → ∀ s,
    ∀ m ∈ readMembers ms s, m.1.isSome ∧ m.2 .sound = .ok () ∧ m.2 .skipped = .ok ()
  | [], _, _ => by simp [readMembers]
  | (_, j) :: ms, h, s => List.forall_mem_cons.2
    ⟨⟨h.1, read_whole j h.2.1 s⟩, readMembers_whole ms h.2.2 s⟩
end

/-- The kind of a node is told by a name or, below another node, by a number of 64 bits. -/
inductive DenotesTag : Strictness → Json → Tag → Prop where
  | name (s : Strictness) (text : String) : DenotesTag s (.string (some text)) (.name text)
  | place {n : Nat} (h : n < UInt64.size) :
    DenotesTag .lenient (.number (some (.integer n))) (.place n)

/-- `body` is what remains of the node without what tells its kind. -/
inductive Tagged : Strictness → Json → Tag → (body : Json) → Prop where
  | object {s : Strictness} {ms : List (Option String × Json)} {j : Json} {tag : Tag}
    (hd : (ms.map Prod.fst).Nodup) (hm : (some "node", j) ∈ ms) (ht : DenotesTag s j tag) :
    Tagged s (.object ms) tag (.object (ms.filter fun m => m.1 != some "node"))
  | array {s : Strictness} {j : Json} {tag : Tag} (js : List Json) (ht : DenotesTag s j tag) :
    Tagged s (.array (j :: js)) tag (.array js)

/-- An object, or an array with nothing in it. -/
inductive Discardable : Json → Prop where
  | object (ms : List (Option String × Json)) : Discardable (.object ms)
  | array : Discardable (.array [])

def selectionKinds : List String := ["field", "fragment_spread", "inline_fragment"]

def definitionKinds : List String := ["fragment", "operation"]

namespace Schema

def directive : Schema := [("arguments", .keyed .value), ("name", .text)]

def variableDefinition : Schema :=
  [("default_value", .optional .value), ("directives", .list .directive),
    ("type_annotation", .text)]

def fragmentSpread : Schema := [("directives", .list .directive), ("name", .text)]

def field : Schema :=
  [("alias", .optional .text), ("arguments", .keyed .value), ("directives", .list .directive),
    ("name", .text), ("selection_set", .list .selection)]

def inlineFragment : Schema :=
  [("directives", .list .directive), ("selection_set", .list .selection),
    ("type_condition", .optional .text)]

def fragmentDefinition : Schema :=
  [("directives", .list .directive), ("name", .text), ("selection_set", .list .selection),
    ("type_condition", .text)]

def operation : Schema :=
  [("directives", .list .directive), ("kind", .kind), ("name", .optional .text),
    ("selection_set", .list .selection), ("variable_definitions", .keyed .variableDefinition)]

def document : Schema := [("definitions", .list .definition)]

end Schema

mutual

/-- `c` is what the tree holds in this place, whether or not the rules of building allow it. -/
inductive Denotes : Strictness → (slot : Slot) → Json → slot.Content → Prop where
  | null (s : Strictness) : Denotes s .null .null ()
  | emptyObject : Denotes .lenient .null (.object []) ()
  | bool (s : Strictness) (b : Bool) : Denotes s .bool (.bool b) b
  | integer (s : Strictness) (n : Int64) :
    Denotes s .integer (.number (some (.integer n.toInt))) n
  | float (s : Strictness) (x : Binary64) : Denotes s .float (.number (some (.float x))) x
  | rounded (s : Strictness) {n : Int} {x : Binary64}
    (h : Binary64.ofDecimal? (n < 0) ⟨n.natAbs, 0⟩ = some x) :
    Denotes s .float (.number (some (.integer n))) x
  | text (s : Strictness) (t : String) : Denotes s .text (.string (some t)) t
  | nullValue (s : Strictness) : Denotes s .value (.string (some "Null")) .null
  | nullCase {s : Strictness} {j : Json} (h : Denotes s .null j ()) :
    Denotes s .value (.object [(some "Null", j)]) .null
  | boolCase {s : Strictness} {j : Json} {b : Bool} (h : Denotes s .bool j b) :
    Denotes s .value (.object [(some "Boolean", j)]) (.bool b)
  | enumCase {s : Strictness} {j : Json} {name : String} (h : Denotes s .text j name) :
    Denotes s .value (.object [(some "Enum", j)]) (.enum name)
  | floatCase {s : Strictness} {j : Json} {x : Binary64} (h : Denotes s .float j x) :
    Denotes s .value (.object [(some "Float", j)]) (.float x)
  | intCase {s : Strictness} {j : Json} {n : Int64} (h : Denotes s .integer j n) :
    Denotes s .value (.object [(some "Int", j)]) (.int n)
  | listCase {s : Strictness} {j : Json} {items : List Value}
    (h : Denotes s (.list .value) j items) :
    Denotes s .value (.object [(some "List", j)]) (.list items)
  | objectCase {s : Strictness} {j : Json} {fields : List (String × Value)}
    (h : Denotes s (.keyed .value) j fields) :
    Denotes s .value (.object [(some "Object", j)]) (.object fields)
  | stringCase {s : Strictness} {j : Json} {text : String} (h : Denotes s .text j text) :
    Denotes s .value (.object [(some "String", j)]) (.string text)
  | varCase {s : Strictness} {j : Json} {name : String} (h : Denotes s .text j name) :
    Denotes s .value (.object [(some "Variable", j)]) (.var name)
  | kind (s : Strictness) (k : OperationKind) : Denotes s .kind (.string (some k.jsonName)) k
  | kindCase {s : Strictness} {j : Json} (k : OperationKind) (h : Denotes s .null j ()) :
    Denotes s .kind (.object [(some k.jsonName, j)]) k
  | absent (s : Strictness) (slot : Slot) : Denotes s (.optional slot) .null none
  | present {s : Strictness} {slot : Slot} {j : Json} {c : slot.Content} (hn : j ≠ .null)
    (h : Denotes s slot j c) : Denotes s (.optional slot) j (some c)
  | list {s : Strictness} {slot : Slot} {js : List Json} {cs : List slot.Content}
    (h : DenotesItems s slot js cs) : Denotes s (.list slot) (.array js) cs
  | keyed {s : Strictness} {slot : Slot} {ms : List (Option String × Json)}
    {es : Keyed slot.Content} (hd : Keyed.Distinct es) (h : DenotesEntries s slot ms es) :
    Denotes s (.keyed slot) (.object ms) es
  | directive {s : Strictness} {j : Json} {name : String} {args : Arguments}
    (h : DenotesRecord s .directive j (args, name, ())) : Denotes s .directive j ⟨name, args⟩
  | variableDefinition {s : Strictness} {j : Json} {type : String} {default : Option Value}
    {ds : List Directive} (h : DenotesRecord s .variableDefinition j (default, ds, type, ())) :
    Denotes s .variableDefinition j ⟨type, default, ds⟩
  | fragmentSpread {s : Strictness} {j : Json} {name : String} {ds : List Directive}
    (h : DenotesRecord s .fragmentSpread j (ds, name, ())) :
    Denotes s .fragmentSpread j ⟨name, ds⟩
  | field {s : Strictness} {j : Json} {name : String} {label : Option String} {args : Arguments}
    {ds : List Directive} {ss : List Selection}
    (h : DenotesRecord s .field j (label, args, ds, name, ss, ())) :
    Denotes s .field j ⟨name, label, args, ds, ss⟩
  | inlineFragment {s : Strictness} {j : Json} {type : Option String} {ds : List Directive}
    {ss : List Selection} (h : DenotesRecord s .inlineFragment j (ds, ss, type, ())) :
    Denotes s .inlineFragment j ⟨type, ds, ss⟩
  | fragmentDefinition {s : Strictness} {j : Json} {name type : String} {ds : List Directive}
    {ss : List Selection} (h : DenotesRecord s .fragmentDefinition j (ds, name, ss, type, ())) :
    Denotes s .fragmentDefinition j ⟨name, type, ds, ss⟩
  | operation {s : Strictness} {j : Json} {kind : OperationKind} {name : Option String}
    {declared : Keyed VariableDefinition} {ds : List Directive} {ss : List Selection}
    (h : DenotesRecord s .operation j (ds, kind, name, ss, declared, ())) :
    Denotes s .operation j ⟨kind, name, declared, ds, ss⟩
  | document {s : Strictness} {j : Json} {definitions : List Definition}
    (h : DenotesRecord s .document j (definitions, ())) : Denotes s .document j ⟨definitions⟩
  | fieldNode {s : Strictness} {j body : Json} {tag : Tag} {f : Field}
    (ht : Tagged s j tag body) (hk : tag.among? selectionKinds = some "field")
    (h : Denotes .lenient .field body f) : Denotes s .selection j (.field f)
  | spreadNode {s : Strictness} {j body : Json} {tag : Tag} {x : FragmentSpread}
    (ht : Tagged s j tag body) (hk : tag.among? selectionKinds = some "fragment_spread")
    (h : Denotes .lenient .fragmentSpread body x) : Denotes s .selection j (.spread x)
  | inlineFragmentNode {s : Strictness} {j body : Json} {tag : Tag} {f : InlineFragment}
    (ht : Tagged s j tag body) (hk : tag.among? selectionKinds = some "inline_fragment")
    (h : Denotes .lenient .inlineFragment body f) : Denotes s .selection j (.inlineFragment f)
  | unknownSelection {s : Strictness} {j body : Json} {tag : Tag} (ht : Tagged s j tag body)
    (hk : tag.among? selectionKinds = none) (hb : Discardable body) :
    Denotes s .selection j .unknown
  | fragmentNode {s : Strictness} {j body : Json} {tag : Tag} {f : FragmentDefinition}
    (ht : Tagged s j tag body) (hk : tag.among? definitionKinds = some "fragment")
    (h : Denotes .lenient .fragmentDefinition body f) : Denotes s .definition j (.fragment f)
  | operationNode {s : Strictness} {j body : Json} {tag : Tag} {o : Operation}
    (ht : Tagged s j tag body) (hk : tag.among? definitionKinds = some "operation")
    (h : Denotes .lenient .operation body o) : Denotes s .definition j (.operation o)
  | unknownDefinition {s : Strictness} {j body : Json} {tag : Tag} (ht : Tagged s j tag body)
    (hk : tag.among? definitionKinds = none) (hb : Discardable body) :
    Denotes s .definition j .unknown

inductive DenotesItems :
    Strictness → (slot : Slot) → List Json → List slot.Content → Prop where
  | nil (s : Strictness) (slot : Slot) : DenotesItems s slot [] []
  | cons {s : Strictness} {slot : Slot} {j : Json} {js : List Json} {c : slot.Content}
    {cs : List slot.Content} (h : Denotes s slot j c) (hs : DenotesItems s slot js cs) :
    DenotesItems s slot (j :: js) (c :: cs)

inductive DenotesEntries :
    Strictness → (slot : Slot) → List (Option String × Json) → Keyed slot.Content → Prop where
  | nil (s : Strictness) (slot : Slot) : DenotesEntries s slot [] []
  | cons {s : Strictness} {slot : Slot} (k : String) {j : Json}
    {ms : List (Option String × Json)} {c : slot.Content} {es : Keyed slot.Content}
    (h : Denotes s slot j c) (hs : DenotesEntries s slot ms es) :
    DenotesEntries s slot ((some k, j) :: ms) ((k, c) :: es)

/-- An object has its members in any order, others among them; an array has exactly the values. -/
inductive DenotesRecord :
    Strictness → (schema : Schema) → Json → schema.Contents → Prop where
  | object {s : Strictness} {schema : Schema} {ms : List (Option String × Json)}
    {cs : schema.Contents} (hd : (ms.map Prod.fst).Nodup) (h : DenotesMembers s schema ms cs) :
    DenotesRecord s schema (.object ms) cs
  | array {s : Strictness} {schema : Schema} {js : List Json} {cs : schema.Contents}
    (h : DenotesInOrder s schema js cs) : DenotesRecord s schema (.array js) cs

/-- What stands under each key of the schema. Only an optional member may be left out. -/
inductive DenotesMembers :
    Strictness → (schema : Schema) → List (Option String × Json) → schema.Contents → Prop where
  | nil (s : Strictness) (ms : List (Option String × Json)) : DenotesMembers s [] ms ()
  | given {s : Strictness} {k : String} {slot : Slot} {rest : Schema}
    {ms : List (Option String × Json)} {j : Json} {c : slot.Content} {cs : rest.Contents}
    (hm : (some k, j) ∈ ms) (h : Denotes s slot j c) (hs : DenotesMembers s rest ms cs) :
    DenotesMembers s ((k, slot) :: rest) ms (c, cs)
  | omitted {s : Strictness} {k : String} {slot : Slot} {rest : Schema}
    {ms : List (Option String × Json)} {cs : rest.Contents} (hm : some k ∉ ms.map Prod.fst)
    (hs : DenotesMembers s rest ms cs) :
    DenotesMembers s ((k, .optional slot) :: rest) ms (none, cs)

inductive DenotesInOrder :
    Strictness → (schema : Schema) → List Json → schema.Contents → Prop where
  | nil (s : Strictness) : DenotesInOrder s [] [] ()
  | cons {s : Strictness} (k : String) {slot : Slot} {rest : Schema} {j : Json} {js : List Json}
    {c : slot.Content} {cs : rest.Contents} (h : Denotes s slot j c)
    (hs : DenotesInOrder s rest js cs) :
    DenotesInOrder s ((k, slot) :: rest) (j :: js) (c, cs)

end

end Json
end QueryDocument
