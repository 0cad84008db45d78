import QueryDocument.Keyed
import QueryDocument.Binary64
import QueryDocument.Text.Inspect

/-!
Input values: the literals of a query language, with variable references beside them. A variable's
name is kept without its dollar sign. The diagnostic form of a value shows its case and all it
holds.
-/
namespace QueryDocument

inductive Value where
  | bool (b : Bool)
  | enum (name : String)
  | float (x : Binary64)
  | int (n : Int64)
  | list (items : List Value)
  | null
  | object (fields : List (String × Value))
  | string (text : String)
  | var (name : String)

abbrev Arguments := Keyed Value

/-- The text without the dollar sign at its head, if it has one. -/
def bareName (text : String) : String :=
  match text.toList with
  | '$' :: cs => String.ofList cs
  | _ => text

namespace Value

def ofPairs (ps : List (String × Value)) : Value := .object (Keyed.ofPairs ps)

/-- A variable reference; the dollar sign is at choice. -/
def varNamed (text : String) : Value := .var (bareName text)

/-- A text that begins with a dollar sign names a variable, any other an enum value. -/
def ofTag (text : String) : Value :=
  match text.toList with
  | '$' :: cs => .var (String.ofList cs)
  | _ => .enum text

/-- The text of a value that can stand for a name: an enum value or a string. -/
def name? : Value → Option String
  | .enum text => some text
  | .string text => some text
  | _ => none

def isNull : Value → Bool
  | .null => true
  | _ => false

mutual
/-- Objects are equal as maps, lists entry by entry, floats as numbers. -/
def eq : Value → Value → Bool
  | .bool a, .bool b => a == b
  | .enum a, .enum b => a == b
  | .float a, .float b => a.eq b
  | .int a, .int b => a == b
  | .list as, .list bs => eqItems as bs
  | .null, .null => true
  | .object as, .object bs => as.length == bs.length && eqFields as bs
  | .string a, .string b => a == b
  | .var a, .var b => a == b
  | _, _ => false

def eqItems : List Value → List Value → Bool
  | [], [] => true
  | a :: as, b :: bs => a.eq b && eqItems as bs
  | _, _ => false

/-- Every field of the first map has an equal one in the second. -/
def eqFields : List (String × Value) → List (String × Value) → Bool
  | [], _ => true
  | (k, a) :: as, bs =>
    (match bs.lookup k with
      | some b => a.eq b
      | none => false) && eqFields as bs
end

instance : BEq Value := ⟨eq⟩

/-- Of argument maps. -/
def eqArguments (as bs : Arguments) : Bool := as.length == bs.length && eqFields as bs

def tagged (tag inside : String) : String := tag ++ "(" ++ inside ++ ")"

mutual
def inspect : Value → String
  | .bool b => tagged "Boolean" (if b then "true" else "false")
  | .enum name => tagged "Enum" (Text.inspect name)
  | .float x => tagged "Float" x.text
  | .int n => tagged "Int" (toString n.toInt)
  | .list items => tagged "List" ("[" ++ ", ".intercalate (inspectItems items) ++ "]")
  | .null => "Null"
  | .object fields =>
    tagged "Object" ("\x7b" ++ ", ".intercalate (inspectFields fields) ++ "\x7d")
  | .string text => tagged "String" (Text.inspect text)
  | .var name => tagged "Variable" (Text.inspect name)

def inspectItems : List Value → List String
  | [] => []
  | v :: vs => v.inspect :: inspectItems vs

def inspectFields : List (String × Value) → List String
  | [] => []
  | (k, v) :: fs => (Text.inspect k ++ ": " ++ v.inspect) :: inspectFields fs
end

end Value
end QueryDocument
