import QueryDocument.Json.Tree
import QueryDocument.Json.Layer

/-!
Reading JSON as values and document nodes. From tokens to trees it goes with the containers that are
still open on a stack, and nothing is refused on the way: where the tokens stop making a document
there is `broken`, and what is open is closed.
-/
namespace QueryDocument
namespace Json

/-- An open container with what it holds so far, the last item first. -/
inductive Frame where
  | array (items : List Json)
  | object (members : List (Option String × Json)) (key : Option String)

/-- Closes a container around its last item. -/
def Frame.close : Frame → Json → Json
  | .array items, j => .array (j :: items).reverse
  | .object members key, j => .object ((key, j) :: members).reverse

/-- Closes a container after an item that nothing proper follows. -/
def Frame.cut : Frame → Json → Json
  | .array items, j => .array (.broken :: j :: items).reverse
  | .object members key, j => .object ((none, .broken) :: (key, j) :: members).reverse

def closeAll (stack : List Frame) (j : Json) : Json := stack.foldl (fun j f => f.close j) j

mutual
/-- Reads a value and what its containers hold behind it; leaves what stands behind the whole. -/
def readValue (stack : List Frame) : List Token → Json × List Token
  | .null :: ts => readRest stack .null ts
  | .bool b :: ts => readRest stack (.bool b) ts
  | .number n :: ts => readRest stack (.number n) ts
  | .string s :: ts => readRest stack (.string s) ts
  | .openBracket :: .closeBracket :: ts => readRest stack (.array []) ts
  | .openBracket :: ts => readValue (.array [] :: stack) ts
  | .openBrace :: .closeBrace :: ts => readRest stack (.object []) ts
  | .openBrace :: .string k :: .colon :: ts => readValue (.object [] k :: stack) ts
  | .openBrace :: _ => (closeAll stack (.object [(none, .broken)]), [])
  | _ => (closeAll stack .broken, [])

/-- Goes on behind the value `j` in the innermost container. -/
def readRest (stack : List Frame) (j : Json) : List Token → Json × List Token
  | [] =>
    match stack with
    | [] => (j, [])
    | f :: stack => (closeAll stack (f.cut j), [])
  | t :: ts =>
    match stack with
    | [] => (j, t :: ts)
    | .array items :: stack =>
      match t with
      | .comma => readValue (.array (j :: items) :: stack) ts
      | .closeBracket => readRest stack (Frame.close (.array items) j) ts
      | _ => (closeAll stack (Frame.cut (.array items) j), [])
    | .object members key :: stack =>
      match t, ts with
      | .comma, .string k :: .colon :: ts =>
        readValue (.object ((key, j) :: members) k :: stack) ts
      | .closeBrace, ts => readRest stack (Frame.close (.object members key) j) ts
      | _, _ => (closeAll stack (Frame.cut (.object members key) j), [])
end

/-- The tree of the value at the head of a text, and whether only blanks follow it. -/
def ofText (text : String) : Json × Bool :=
  let r := readValue [] (Token.scan text.toList)
  (r.1, r.2.isEmpty)

mutual
def read : Json → Strictness → Reading
  | .null, s => Layer.read s .null .null
  | .bool b, s => Layer.read s (.bool b) (.bool b)
  | .number n, s => Layer.read s (.number n) (.number n)
  | .string text, s => Layer.read s (.string text) (.string text)
  | .array items, s =>
    Layer.read s (.array (readItems items s)) (.array (readItems items .lenient))
  | .object members, s =>
    Layer.read s (.object (readMembers members s)) (.object (readMembers members .lenient))
  | .broken, s => Layer.read s .broken .broken

def readItems : List Json → Strictness → List Reading
  | [], _ => []
  | j :: js, s => j.read s :: readItems js s

def readMembers : List (Option String × Json) → Strictness → List (Option String × Reading)
  | [], _ => []
  | (k, j) :: ms, s => (k, j.read s) :: readMembers ms s
end

theorem readItems_eq_map (js : List Json) (s : Strictness) :
    readItems js s = js.map fun j => j.read s := by
  induction js with
  | nil => rfl
  | cons j js ih => simp [readItems, ih]

theorem readMembers_eq_map (ms : List (Option String × Json)) (s : Strictness) :
    readMembers ms s = ms.map fun m => (m.1, m.2.read s) := by
  induction ms with
  | nil => rfl
  | cons m ms ih => simp [readMembers, ih]

/-- Reads a text that holds one document and nothing else. -/
def decode (slot : Slot) (text : String) : Reads slot.Content :=
  match ofText text with
  | (j, ended) => do
    let c ← j.read .strict slot
    if ended then pure c else throw .malformed

end Json
end QueryDocument
