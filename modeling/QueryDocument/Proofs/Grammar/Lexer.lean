import QueryDocument.Decimal
import QueryDocument.Proofs.Text.Literal

/-!
The lexical grammar of executable documents (GraphQL, October 2021): what may stand between tokens,
and the tokens themselves, each as long as it can be.
-/
namespace QueryDocument
namespace Grammar

inductive Token where
  | bang
  | dollar
  | amp
  | openParen
  | closeParen
  | spread
  | colon
  | equals
  | atSign
  | openBracket
  | closeBracket
  | openBrace
  | pipe
  | closeBrace
  | name (text : String)
  | number (n : Numeral)
  | string (text : String)
  deriving DecidableEq

def isLineEnd (c : Char) : Bool := c == '\n' || c == '\r'
def isWhite (c : Char) : Bool := c == ' ' || c == '\t'

/-- Characters that may stand in a document at all. -/
def isSource (c : Char) : Bool :=
  c == '\t' || isLineEnd c || (0x20 ≤ c.toNat && c.toNat ≤ 0xFFFF)

/-- White space, line ends, commas and the byte order mark separate tokens and mean nothing. -/
def isIgnored (c : Char) : Bool := isWhite c || isLineEnd c || c == ',' || c == '\uFEFF'

def isNameStart (c : Char) : Bool := c.isAlpha || c == '_'
def isNameContinue (c : Char) : Bool := c.isAlphanum || c == '_'

def isName (text : String) : Bool :=
  match text.toList with
  | [] => false
  | c :: cs => isNameStart c && cs.all isNameContinue

def punctuator? : Char → Option Token
  | '!' => some .bang
  | '$' => some .dollar
  | '&' => some .amp
  | '(' => some .openParen
  | ')' => some .closeParen
  | ':' => some .colon
  | '=' => some .equals
  | '@' => some .atSign
  | '[' => some .openBracket
  | ']' => some .closeBracket
  | '\x7b' => some .openBrace
  | '|' => some .pipe
  | '\x7d' => some .closeBrace
  | _ => none

/-- What may stand in a string as itself, beside quotes and backslashes. -/
def isRaw (c : Char) : Bool := isSource c && !isLineEnd c

def splitLines : List Char → List (List Char)
  | [] => [[]]
  | '\r' :: '\n' :: cs => [] :: splitLines cs
  | c :: cs =>
    if isLineEnd c then [] :: splitLines cs
    else match splitLines cs with
      | [] => [[c]]
      | l :: ls => (c :: l) :: ls

/-- How far a line is indented that holds more than white space. -/
def indentOf (l : List Char) : Option Nat :=
  let n := (l.takeWhile isWhite).length
  if n < l.length then some n else none

/-- The text of a block string: without the indentation that all lines but the first share, and
without the blank lines at both ends. -/
def blockText (cs : List Char) : List Char :=
  let ls := splitLines cs
  let common := ((ls.drop 1).filterMap indentOf).min?.getD 0
  let ls := ls.take 1 ++ (ls.drop 1).map (List.drop common)
  let ls := ls.dropWhile (List.all · isWhite)
  let ls := (ls.reverse.dropWhile (List.all · isWhite)).reverse
  ['\n'].intercalate ls

/-- The characters up to three quotes; a backslash before three quotes makes them characters. -/
def scanBlock : List Char → Option (List Char × List Char)
  | '"' :: '"' :: '"' :: cs => some ([], cs)
  | '\\' :: '"' :: '"' :: '"' :: cs => do
    let (inside, rest) ← scanBlock cs
    pure ('"' :: '"' :: '"' :: inside, rest)
  | c :: cs =>
    if isSource c then do
      let (inside, rest) ← scanBlock cs
      pure (c :: inside, rest)
    else none
  | [] => none

/-- A string whose first quote is gone. -/
def scanString : List Char → Option (Token × List Char)
  | '"' :: '"' :: cs => do
    let (inside, rest) ← scanBlock cs
    pure (.string (String.ofList (blockText inside)), rest)
  | cs => do
    let (ps, rest) ← Text.scanWith isRaw cs
    let text ← Text.assemble ps
    pure (.string (String.ofList text), rest)

/-- Nothing follows that would lengthen a name or a number. -/
def isApart (rest : List Char) : Bool :=
  match rest with
  | [] => true
  | c :: _ => !isNameContinue c && c != '.'

def scanNumber (cs : List Char) : Option (Token × List Char) := do
  let (n, rest) ← Numeral.scan cs
  if isApart rest then pure (.number n, rest) else none

def scanName (cs : List Char) : Token × List Char :=
  (.name (String.ofList (cs.takeWhile isNameContinue)), cs.dropWhile isNameContinue)

def scanSpread : List Char → Option (Token × List Char)
  | '.' :: '.' :: cs => some (.spread, cs)
  | _ => none

/-- The token at the head of a text that nothing ignored stands before. -/
def scanToken (c : Char) (cs : List Char) : Option (Token × List Char) :=
  match punctuator? c with
  | some t => some (t, cs)
  | none =>
    if c = '.' then scanSpread cs
    else if c = '"' then scanString cs
    else if isNameStart c then some (scanName (c :: cs))
    else scanNumber (c :: cs)

/-- A comment goes up to the end of its line. -/
def skipComment (cs : List Char) : Option (List Char) :=
  if (cs.takeWhile fun c => !isLineEnd c).all isSource then
    some (cs.dropWhile fun c => !isLineEnd c)
  else none

/-- Every step takes a character, so there are at most `fuel` of them. -/
def scanUpTo : Nat → List Char → Option (List Token)
  | _, [] => some []
  | 0, _ :: _ => none
  | fuel + 1, c :: cs =>
    if isIgnored c then scanUpTo fuel cs
    else if c = '#' then do
      let cs ← skipComment cs
      scanUpTo fuel cs
    else do
      let (t, rest) ← scanToken c cs
      let ts ← scanUpTo fuel rest
      pure (t :: ts)

/-- The tokens of a text. -/
def scan (cs : List Char) : Option (List Token) := scanUpTo cs.length cs

example : scan "a\"\"\"\n  b\n   c\"\"\", # d\n".toList = some [.name "a", .string "b\n c"] := by
  decide +kernel

example : scan "01".toList = none := by decide +kernel

end Grammar
end QueryDocument
