import QueryDocument.Document.Basic
import QueryDocument.Build.Node
import QueryDocument.Json.Tree

/-!
Reading one layer of a JSON tree, given readings of what lies below. A slot tells what a place in a
document may have to hold, and the type of what is read there.

The first fault in the order of the text wins: the members of an object are read as they come, a
missing one is noticed at its end, and the rules of building hold once an object is complete. An
object that has to tell its kind is first gone through as a whole, for its literals and for its
kind; what it holds is then read leniently.
-/
namespace QueryDocument
namespace Json

/-- What tells the kind of a node: the name of the kind or its place among the kinds. -/
inductive Tag where
  | name (text : String)
  | place (n : Nat)
  deriving DecidableEq

/-- The kind that is told, if it is one of the given kinds. -/
def Tag.among? (kinds : List String) : Tag → Option String
  | .name text => if text ∈ kinds then some text else none
  | .place n => kinds[n]?

inductive Slot where
  /-- Anything, which is skipped. -/
  | skipped
  /-- Anything, as long as every literal in it denotes something. -/
  | sound
  | null
  | bool
  | integer
  | float
  | text
  | value
  | kind
  | tag
  | directive
  | variableDefinition
  | field
  | fragmentSpread
  | inlineFragment
  | selection
  | fragmentDefinition
  | operation
  | definition
  | document
  | optional (slot : Slot)
  | list (slot : Slot)
  | keyed (slot : Slot)
  deriving DecidableEq

@[reducible] def Slot.Content : Slot → Type
  | .skipped => Unit
  | .sound => Unit
  | .null => Unit
  | .bool => Bool
  | .integer => Int64
  | .float => Binary64
  | .text => String
  | .value => Value
  | .kind => OperationKind
  | .tag => Tag
  | .directive => Directive
  | .variableDefinition => VariableDefinition
  | .field => Field
  | .fragmentSpread => FragmentSpread
  | .inlineFragment => InlineFragment
  | .selection => Selection
  | .fragmentDefinition => FragmentDefinition
  | .operation => Operation
  | .definition => Definition
  | .document => Document
  | .optional slot => Option slot.Content
  | .list slot => List slot.Content
  | .keyed slot => Keyed slot.Content

/-- The keys of an object and what stands under each, in the order of its array form. -/
abbrev Schema := List (String × Slot)

/-- One content for each key. -/
@[reducible] def Schema.Contents : Schema → Type
  | [] => Unit
  | (_, slot) :: rest => slot.Content × Schema.Contents rest

/-- The contents found so far. -/
@[reducible] def Schema.Draft : Schema → Type
  | [] => Unit
  | (_, slot) :: rest => Option slot.Content × Schema.Draft rest

end Json

/-- Why a document is refused: as JSON of the expected form, or by a rule of building. -/
inductive ReadError where
  | malformed
  | invalid (e : BuildError)

namespace Json

abbrev Reads := Except ReadError

/-- Reading is strict, but lenient inside a node that tells its kind: there the null of a case that
holds nothing may be an empty object, and a kind may be told by its place among the kinds. -/
inductive Strictness where
  | strict
  | lenient
  deriving DecidableEq

/-- How a tree is read in every place it could stand in. -/
abbrev Reading := (slot : Slot) → Reads slot.Content

inductive Layer where
  | null
  | bool (b : Bool)
  | number (n : Option Number)
  | string (text : Option String)
  | array (items : List Reading)
  | object (members : List (Option String × Reading))
  | broken

namespace Schema

def noDraft : (schema : Schema) → Schema.Draft schema
  | [] => ()
  | _ :: rest => (none, noDraft rest)

/-- Reads a member into its place. A second one of the same name is refused, one of a foreign name
is skipped. -/
def put (key : String) (r : Reading) :
    (schema : Schema) → Schema.Draft schema → Reads (Schema.Draft schema)
  | [], d => do
    r .skipped
    pure d
  | (k, slot) :: rest, (c, d) =>
    if k = key then
      match c with
      | some _ => .error .malformed
      | none => do
        let c ← r slot
        pure (some c, d)
    else do
      let d ← put key r rest d
      pure (c, d)

def putAll (schema : Schema) :
    List (Option String × Reading) → Schema.Draft schema → Reads (Schema.Draft schema)
  | [], d => .ok d
  | (none, _) :: _, _ => .error .malformed
  | (some key, r) :: members, d => do
    let d ← put key r schema d
    putAll schema members d

/-- What stands for a member that is missing. -/
def missing : (slot : Slot) → Reads slot.Content
  | .optional _ => .ok none
  | _ => .error .malformed

def complete : (schema : Schema) → Schema.Draft schema → Reads (Schema.Contents schema)
  | [], _ => .ok ()
  | (_, slot) :: rest, (c, d) => do
    let c ← match c with
      | some c => .ok c
      | none => missing slot
    let cs ← complete rest d
    pure (c, cs)

/-- Reads an array that has exactly one item for each key. -/
def inOrder : (schema : Schema) → List Reading → Reads (Schema.Contents schema)
  | [], [] => .ok ()
  | (_, slot) :: rest, r :: rs => do
    let c ← r slot
    let cs ← inOrder rest rs
    pure (c, cs)
  | _, _ => .error .malformed

end Schema

namespace Layer

def struct (schema : Schema) : Layer → Reads (Schema.Contents schema)
  | .array items => schema.inOrder items
  | .object members => do
    let d ← schema.putAll members schema.noDraft
    schema.complete d
  | _ => .error .malformed

def built (b : Built α) : Reads α := b.mapError .invalid

def skip : Layer → Reads Unit
  | .array items => items.forM fun r => r .skipped
  | .object members => members.forM fun m => m.2 .skipped
  | .broken => .error .malformed
  | _ => .ok ()

def check : Layer → Reads Unit
  | .number none => .error .malformed
  | .string none => .error .malformed
  | .array items => items.forM fun r => r .sound
  | .object members => members.forM fun m => do
    if m.1.isNone then throw .malformed
    m.2 .sound
  | .broken => .error .malformed
  | _ => .ok ()

def toNull (s : Strictness) : Layer → Reads Unit
  | .null => .ok ()
  | .object [] => if s = .lenient then .ok () else .error .malformed
  | _ => .error .malformed

def toBool : Layer → Reads Bool
  | .bool b => .ok b
  | _ => .error .malformed

def toInteger : Layer → Reads Int64
  | .number (some (.integer n)) =>
    if Int64.minValue.toInt ≤ n ∧ n ≤ Int64.maxValue.toInt then .ok (Int64.ofInt n)
    else .error .malformed
  | _ => .error .malformed

/-- Integer literals are rounded. -/
def toFloat : Layer → Reads Binary64
  | .number (some (.float x)) => .ok x
  | .number (some (.integer n)) =>
    match Binary64.ofDecimal? (n < 0) ⟨n.natAbs, 0⟩ with
    | some x => .ok x
    | none => .error .malformed
  | _ => .error .malformed

def toText : Layer → Reads String
  | .string (some s) => .ok s
  | _ => .error .malformed

def toList (slot : Slot) : Layer → Reads (List slot.Content)
  | .array items => items.mapM fun r => r slot
  | _ => .error .malformed

/-- Of two members of one name the later value stays, in the earlier place. -/
def entriesOf (slot : Slot) :
    List (Option String × Reading) → Keyed slot.Content → Reads (Keyed slot.Content)
  | [], es => .ok es
  | (none, _) :: _, _ => .error .malformed
  | (some key, r) :: members, es => do
    let c ← r slot
    entriesOf slot members (Keyed.insert key c es)

def toKeyed (slot : Slot) : Layer → Reads (Keyed slot.Content)
  | .object members => entriesOf slot members []
  | _ => .error .malformed

/-- The case `null` may also stand as an object that holds null. -/
def toValue : Layer → Reads Value
  | .string (some "Null") => .ok .null
  | .object [(some "Boolean", r)] => .bool <$> r .bool
  | .object [(some "Enum", r)] => .enum <$> r .text
  | .object [(some "Float", r)] => .float <$> r .float
  | .object [(some "Int", r)] => .int <$> r .integer
  | .object [(some "List", r)] => .list <$> r (.list .value)
  | .object [(some "Null", r)] => (fun _ => .null) <$> r .null
  | .object [(some "Object", r)] => .object <$> r (.keyed .value)
  | .object [(some "String", r)] => .string <$> r .text
  | .object [(some "Variable", r)] => .var <$> r .text
  | _ => .error .malformed

def kindNamed : String → Reads OperationKind
  | "Mutation" => .ok .mutation
  | "Query" => .ok .query
  | "Subscription" => .ok .subscription
  | _ => .error .malformed

def toKind : Layer → Reads OperationKind
  | .string (some name) => kindNamed name
  | .object [(some name, r)] => do
    let kind ← kindNamed name
    r .null
    pure kind
  | _ => .error .malformed

/-- A place is a number that fits 64 bits. -/
def toTag (s : Strictness) : Layer → Reads Tag
  | .string (some text) => .ok (.name text)
  | .number (some (.integer n)) =>
    if s = .lenient ∧ 0 ≤ n ∧ n.toNat < UInt64.size then .ok (.place n.toNat)
    else .error .malformed
  | _ => .error .malformed

def toDirective (l : Layer) : Reads Directive := do
  let (args, name, _) ← l.struct [("arguments", .keyed .value), ("name", .text)]
  built (Directive.withArguments name args)

def toVariableDefinition (l : Layer) : Reads VariableDefinition := do
  let (default, directives, type, _) ← l.struct
    [("default_value", .optional .value), ("directives", .list .directive),
      ("type_annotation", .text)]
  built do
    let d ← VariableDefinition.new type
    pure { d with default, directives }

def toFragmentSpread (l : Layer) : Reads FragmentSpread := do
  let (directives, name, _) ← l.struct [("directives", .list .directive), ("name", .text)]
  built do
    let s ← FragmentSpread.new name
    pure { s with directives }

def toField (l : Layer) : Reads Field := do
  let (label, args, directives, name, selections, _) ← l.struct
    [("alias", .optional .text), ("arguments", .keyed .value), ("directives", .list .directive),
      ("name", .text), ("selection_set", .list .selection)]
  built do
    let f ← Field.new name
    let f ← match label with
      | none => .ok f
      | some label => (Field.setLabel label).made f
    let f ← (Field.setArguments args).made f
    pure { f with directives, selections }

def toInlineFragment (l : Layer) : Reads InlineFragment := do
  let (directives, selections, type, _) ← l.struct
    [("directives", .list .directive), ("selection_set", .list .selection),
      ("type_condition", .optional .text)]
  built (InlineFragment.close { InlineFragment.new type with directives, selections })

def toFragmentDefinition (l : Layer) : Reads FragmentDefinition := do
  let (directives, name, selections, type, _) ← l.struct
    [("directives", .list .directive), ("name", .text), ("selection_set", .list .selection),
      ("type_condition", .text)]
  built do
    let f ← FragmentDefinition.new name type
    pure { f with directives, selections }

def toOperation (l : Layer) : Reads Operation := do
  let (directives, kind, name, selections, declared, _) ← l.struct
    [("directives", .list .directive), ("kind", .kind), ("name", .optional .text),
      ("selection_set", .list .selection), ("variable_definitions", .keyed .variableDefinition)]
  built do
    let o ← Operation.new kind name
    let o ← (Operation.declareAll declared).made o
    pure { o with directives, selections }

/-- What tells the kind of a node: its only member `node`, or its first item. -/
def tag (l : Layer) : Reads Tag := do
  l.check
  match l with
  | .object members =>
    match members.filter fun m => m.1 == some "node" with
    | [m] => m.2 .tag
    | _ => .error .malformed
  | .array (r :: _) => r .tag
  | _ => .error .malformed

/-- The node without what tells its kind. -/
def attributes : Layer → Layer
  | .object members => .object (members.filter fun m => m.1 != some "node")
  | .array items => .array items.tail
  | l => l

/-- Whatever an object of an unknown kind holds does not matter; an array may hold nothing. -/
def discard (a : α) : Layer → Reads α
  | .array (_ :: _) => .error .malformed
  | _ => .ok a

/-- The attributes are taken from `inside`, the same layer with its parts read leniently. -/
def toSelection (l inside : Layer) : Reads Selection := do
  let tag ← l.tag
  match tag.among? ["field", "fragment_spread", "inline_fragment"] with
  | some "field" => .field <$> inside.attributes.toField
  | some "fragment_spread" => .spread <$> inside.attributes.toFragmentSpread
  | some "inline_fragment" => .inlineFragment <$> inside.attributes.toInlineFragment
  | _ => inside.attributes.discard .unknown

/-- The attributes are taken from `inside`, as those of a selection are. -/
def toDefinition (l inside : Layer) : Reads Definition := do
  let tag ← l.tag
  match tag.among? ["fragment", "operation"] with
  | some "fragment" => .fragment <$> inside.attributes.toFragmentDefinition
  | some "operation" => .operation <$> inside.attributes.toOperation
  | _ => inside.attributes.discard .unknown

def toDocument (l : Layer) : Reads Document := do
  let (definitions, _) ← l.struct [("definitions", .list .definition)]
  pure { definitions }

/-- Reads the layer `l`; `inside` is the same layer with its parts read leniently. -/
def read (s : Strictness) (l inside : Layer) : Reading
  | .skipped => l.skip
  | .sound => l.check
  | .null => l.toNull s
  | .bool => l.toBool
  | .integer => l.toInteger
  | .float => l.toFloat
  | .text => l.toText
  | .value => l.toValue
  | .kind => l.toKind
  | .tag => l.toTag s
  | .directive => l.toDirective
  | .variableDefinition => l.toVariableDefinition
  | .field => l.toField
  | .fragmentSpread => l.toFragmentSpread
  | .inlineFragment => l.toInlineFragment
  | .selection => l.toSelection inside
  | .fragmentDefinition => l.toFragmentDefinition
  | .operation => l.toOperation
  | .definition => l.toDefinition inside
  | .document => l.toDocument
  | .optional slot =>
    match l with
    | .null => .ok none
    | _ => some <$> l.read s inside slot
  | .list slot => l.toList slot
  | .keyed slot => l.toKeyed slot

end Layer
end Json
end QueryDocument
