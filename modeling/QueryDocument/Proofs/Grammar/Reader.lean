import QueryDocument.Binary64
import QueryDocument.Document.Basic
import QueryDocument.Proofs.Grammar.Lexer

/-!
The grammar of executable documents (GraphQL, October 2021), read by recursive descent over the
tokens of a text. Every function takes the tokens in front of it and leaves those behind what it
read; the number it counts down bounds how deep it nests and how many items it reads, and the
number of tokens is always enough.
-/
namespace QueryDocument
namespace Grammar

abbrev Reader (α : Type) := List Token → Option (α × List Token)

/-- Types as they are written. A required one has an exclamation mark behind it. -/
inductive TypeReference where
  | named (name : String) (required : Bool)
  | list (item : TypeReference) (required : Bool)
  deriving DecidableEq

/-- The type without any blanks. -/
def TypeReference.text : TypeReference → String
  | .named name required => name ++ if required then "!" else ""
  | .list item required => "[" ++ item.text ++ "]" ++ if required then "!" else ""

def readBang : List Token → Bool × List Token
  | .bang :: ts => (true, ts)
  | ts => (false, ts)

def readType : Nat → Reader TypeReference
  | fuel + 1, .openBracket :: ts => do
    match ← readType fuel ts with
    | (item, .closeBracket :: ts) =>
      let (required, ts) := readBang ts
      pure (.list item required, ts)
    | _ => none
  | _, .name name :: ts =>
    let (required, ts) := readBang ts
    some (.named name required, ts)
  | _, _ => none

/-- A whole number must fit 64 bits, any other must lie within the doubles. -/
def readNumber (n : Numeral) : Option Value :=
  if n.isInteger then
    if Int64.minValue.toInt ≤ n.integer ∧ n.integer ≤ Int64.maxValue.toInt then
      some (.int (Int64.ofInt n.integer))
    else none
  else .float <$> Binary64.ofNumeral? n

/-- A name in the place of a value. -/
def readWord (name : String) : Value :=
  if name = "true" then .bool true
  else if name = "false" then .bool false
  else if name = "null" then .null
  else .enum name

mutual
def readValue (constant : Bool) : Nat → Reader Value
  | fuel + 1, .openBracket :: ts => do
    let (items, ts) ← readItems constant fuel ts
    pure (.list items, ts)
  | fuel + 1, .openBrace :: ts => do
    let (fields, ts) ← readEntries constant .closeBrace fuel ts
    pure (.object fields, ts)
  | _, .dollar :: .name name :: ts => if constant then none else some (.var name, ts)
  | _, .name name :: ts => some (readWord name, ts)
  | _, .number n :: ts => do
    let v ← readNumber n
    pure (v, ts)
  | _, .string text :: ts => some (.string text, ts)
  | _, _ => none

def readItems (constant : Bool) : Nat → Reader (List Value)
  | _, .closeBracket :: ts => some ([], ts)
  | fuel + 1, ts => do
    let (v, ts) ← readValue constant fuel ts
    let (vs, ts) ← readItems constant fuel ts
    pure (v :: vs, ts)
  | 0, _ => none

/-- The fields of an object or the arguments of a call, up to the token that closes them. -/
def readEntries (constant : Bool) (close : Token) : Nat → Reader (List (String × Value))
  | fuel + 1, .name key :: .colon :: ts => do
    let (v, ts) ← readValue constant fuel ts
    let (es, ts) ← readEntries constant close fuel ts
    pure ((key, v) :: es, ts)
  | _, t :: ts => if t = close then some ([], ts) else none
  | _, [] => none
end

/-- No arguments are written without parentheses. -/
def readArguments (constant : Bool) (fuel : Nat) : Reader Arguments
  | .openParen :: ts => do
    let (args, ts) ← readEntries constant .closeParen fuel ts
    if args.isEmpty then none else pure (args, ts)
  | ts => some ([], ts)

def readDirectives (constant : Bool) : Nat → Reader (List Directive)
  | fuel + 1, .atSign :: .name name :: ts => do
    let (args, ts) ← readArguments constant fuel ts
    let (ds, ts) ← readDirectives constant fuel ts
    pure (⟨name, args⟩ :: ds, ts)
  | _, .atSign :: _ => none
  | _, ts => some ([], ts)

def readDefault (fuel : Nat) : Reader (Option Value)
  | .equals :: ts => do
    let (v, ts) ← readValue true fuel ts
    pure (some v, ts)
  | ts => some (none, ts)

def readVariable (fuel : Nat) : Reader (String × VariableDefinition)
  | .dollar :: .name name :: .colon :: ts => do
    let (type, ts) ← readType fuel ts
    let (default, ts) ← readDefault fuel ts
    let (directives, ts) ← readDirectives true fuel ts
    pure ((name, ⟨type.text, default, directives⟩), ts)
  | _ => none

def readMoreVariables : Nat → Reader (Keyed VariableDefinition)
  | _, .closeParen :: ts => some ([], ts)
  | fuel + 1, ts => do
    let (v, ts) ← readVariable fuel ts
    let (vs, ts) ← readMoreVariables fuel ts
    pure (v :: vs, ts)
  | 0, _ => none

def readVariables (fuel : Nat) : Reader (Keyed VariableDefinition)
  | .openParen :: ts => do
    let (vs, ts) ← readMoreVariables fuel ts
    if vs.isEmpty then none else pure (vs, ts)
  | ts => some ([], ts)

/-- The name of a field, with its label before it if it has one. -/
def readFieldName (first : String) : List Token → Option ((Option String × String) × List Token)
  | .colon :: .name name :: ts => some ((some first, name), ts)
  | .colon :: _ => none
  | ts => some ((none, first), ts)

/-- What three dots introduce. -/
inductive SpreadHead where
  | fragment (name : String)
  | inPlace (typeCondition : Option String)

/-- After the word `on` comes a type; any other name is that of a fragment. -/
def readSpreadHead : List Token → Option (SpreadHead × List Token)
  | .name name :: ts =>
    if name = "on" then
      match ts with
      | .name type :: ts => some (.inPlace (some type), ts)
      | _ => none
    else some (.fragment name, ts)
  | ts => some (.inPlace none, ts)

mutual
def readSelection : Nat → Reader Selection
  | fuel + 1, .spread :: ts => do
    let (head, ts) ← readSpreadHead ts
    let (ds, ts) ← readDirectives false fuel ts
    match head with
    | .fragment name => pure (.spread ⟨name, ds⟩, ts)
    | .inPlace type =>
      let (ss, ts) ← readSelections true fuel ts
      pure (.inlineFragment ⟨type, ds, ss⟩, ts)
  | fuel + 1, .name first :: ts => do
    let ((label, name), ts) ← readFieldName first ts
    let (args, ts) ← readArguments false fuel ts
    let (ds, ts) ← readDirectives false fuel ts
    let (ss, ts) ← readSelections false fuel ts
    pure (.field ⟨name, label, args, ds, ss⟩, ts)
  | _, _ => none

/-- At least one selection, in braces; where they are not required, braces and selections may both
be missing. -/
def readSelections (required : Bool) : Nat → Reader (List Selection)
  | fuel + 1, .openBrace :: ts => do
    let (s, ts) ← readSelection fuel ts
    let (ss, ts) ← readMoreSelections fuel ts
    pure (s :: ss, ts)
  | 0, .openBrace :: _ => none
  | _, ts => if required then none else some ([], ts)

def readMoreSelections : Nat → Reader (List Selection)
  | _, .closeBrace :: ts => some ([], ts)
  | fuel + 1, ts => do
    let (s, ts) ← readSelection fuel ts
    let (ss, ts) ← readMoreSelections fuel ts
    pure (s :: ss, ts)
  | 0, _ => none
end

def operationKind? (word : String) : Option OperationKind :=
  [OperationKind.query, .mutation, .subscription].find? fun kind => kind.keyword = word

def readOperationName : List Token → Option String × List Token
  | .name name :: ts => (some name, ts)
  | ts => (none, ts)

/-- What stands behind the keyword of an operation. -/
def readOperation (kind : OperationKind) (fuel : Nat) : Reader Definition := fun ts => do
  let (name, ts) := readOperationName ts
  let (declared, ts) ← readVariables fuel ts
  let (ds, ts) ← readDirectives false fuel ts
  let (ss, ts) ← readSelections true fuel ts
  pure (.operation ⟨kind, name, declared, ds, ss⟩, ts)

/-- What stands behind the word `fragment`. No fragment has the name `on`. -/
def readFragment (fuel : Nat) : Reader Definition
  | .name name :: .name word :: .name type :: ts => do
    let (ds, ts) ← readDirectives false fuel ts
    let (ss, ts) ← readSelections true fuel ts
    if name ≠ "on" ∧ word = "on" then pure (.fragment ⟨name, type, ds, ss⟩, ts) else none
  | _ => none

/-- Selections alone are a query. -/
def readDefinition (fuel : Nat) : Reader Definition
  | .openBrace :: ts => do
    let (ss, ts) ← readSelections true fuel (.openBrace :: ts)
    pure (.operation ⟨.query, none, [], [], ss⟩, ts)
  | .name word :: ts =>
    if word = "fragment" then readFragment fuel ts
    else do
      let kind ← operationKind? word
      readOperation kind fuel ts
  | _ => none

def readDefinitions : Nat → List Token → Option (List Definition)
  | _, [] => some []
  | fuel + 1, ts => do
    let (d, ts) ← readDefinition fuel ts
    let ds ← readDefinitions fuel ts
    pure (d :: ds)
  | 0, _ => none

/-- The document that a text spells; it has at least one definition. -/
def readDocument (text : String) : Option Document := do
  let ts ← scan text.toList
  let ds ← readDefinitions (ts.length + 1) ts
  if ds.isEmpty then none else pure ⟨ds⟩

end Grammar
end QueryDocument
