import QueryDocument.Binary64
import QueryDocument.Text.Quoted

/-!
JSON documents as trees. A literal can follow the grammar and still denote nothing: a string may
leave a surrogate unpaired, a number may lie beyond all doubles. Such a literal is `none`; it may be
skipped, not read. Where a text stops being JSON its tree ends in `broken`.

The tokens of JSON are read from a text and written to one. `junk` is a place where no token begins;
nothing behind it is read.
-/
namespace QueryDocument

inductive Json.Number where
  | integer (n : Int)
  | float (x : Binary64)
  deriving DecidableEq

inductive Json where
  | null
  | bool (b : Bool)
  | number (n : Option Json.Number)
  | string (text : Option String)
  | array (items : List Json)
  | object (members : List (Option String × Json))
  | broken

namespace Json

/-- A literal without fraction and exponent denotes an integer, unless it is minus zero. -/
def Number.ofNumeral? (n : Numeral) : Option Number := do
  let x ← Binary64.ofNumeral? n
  if n.isInteger ∧ ¬ (n.negative ∧ n.integer = 0) then pure (.integer n.integer)
  else pure (.float x)

def Number.text : Number → String
  | .integer n => toString n
  | .float x => x.text

def text (s : String) : Json := .string (some s)

/-- An object of the given members. -/
def record (members : List (String × Json)) : Json :=
  .object (members.map fun m => (some m.1, m.2))

inductive Token where
  | openBrace
  | closeBrace
  | openBracket
  | closeBracket
  | colon
  | comma
  | null
  | bool (b : Bool)
  | number (n : Option Number)
  | string (text : Option String)
  | junk
  deriving DecidableEq

namespace Token

def isBlank (c : Char) : Bool := c == ' ' || c == '\t' || c == '\n' || c == '\r'

def word (w : String) (t : Token) (cs : List Char) : Option (Token × List Char) :=
  if w.toList.isPrefixOf cs then some (t, cs.drop w.length) else none

def scanNumber (cs : List Char) : Option (Token × List Char) := do
  let (n, rest) ← Numeral.scan cs
  pure (.number (Number.ofNumeral? n), rest)

def scanString (cs : List Char) : Option (Token × List Char) := do
  let (ps, rest) ← Text.scan cs
  pure (.string (String.ofList <$> Text.assemble ps), rest)

/-- The token at the head of a text that does not begin with a blank. -/
def scanOne : List Char → Option (Token × List Char)
  | '\x7b' :: cs => some (.openBrace, cs)
  | '\x7d' :: cs => some (.closeBrace, cs)
  | '[' :: cs => some (.openBracket, cs)
  | ']' :: cs => some (.closeBracket, cs)
  | ':' :: cs => some (.colon, cs)
  | ',' :: cs => some (.comma, cs)
  | '"' :: cs => scanString cs
  | 'n' :: cs => word "ull" .null cs
  | 't' :: cs => word "rue" (.bool true) cs
  | 'f' :: cs => word "alse" (.bool false) cs
  | cs => scanNumber cs

/-- At most `fuel` tokens; every token takes a character. -/
def scanUpTo : Nat → List Char → List Token
  | 0, _ => []
  | _ + 1, [] => []
  | fuel + 1, c :: cs =>
    if isBlank c then scanUpTo fuel cs
    else match scanOne (c :: cs) with
      | some (t, rest) => t :: scanUpTo fuel rest
      | none => [.junk]

def scan (cs : List Char) : List Token := scanUpTo cs.length cs

def text : Token → String
  | .openBrace => "\x7b"
  | .closeBrace => "\x7d"
  | .openBracket => "["
  | .closeBracket => "]"
  | .colon => ":"
  | .comma => ","
  | .null => "null"
  | .bool true => "true"
  | .bool false => "false"
  | .number (some n) => n.text
  | .string (some s) => Text.plainQuotation.quote s
  | _ => ""

end Token

/-- Puts a comma between the pieces. -/
def commaed : List (List Token) → List Token
  | [] => []
  | [ts] => ts
  | ts :: tss => ts ++ .comma :: commaed tss

mutual
def tokens : Json → List Token
  | .null => [.null]
  | .bool b => [.bool b]
  | .number n => [.number n]
  | .string s => [.string s]
  | .array items => .openBracket :: commaed (tokensOfItems items) ++ [.closeBracket]
  | .object members => .openBrace :: commaed (tokensOfMembers members) ++ [.closeBrace]
  | .broken => [.junk]

def tokensOfItems : List Json → List (List Token)
  | [] => []
  | j :: js => j.tokens :: tokensOfItems js

def tokensOfMembers : List (Option String × Json) → List (List Token)
  | [] => []
  | (k, j) :: ms => (.string k :: .colon :: j.tokens) :: tokensOfMembers ms
end

/-- Without blanks between the tokens. -/
def write (j : Json) : String := String.join (j.tokens.map Token.text)

end Json
end QueryDocument
