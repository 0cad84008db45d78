import QueryDocument.Document.Basic
import QueryDocument.Render.Value

/-!
The lines of a node: what stands on each and how deep it is nested, before any decision about
indentation. Braces stand on lines of their own, at the depth of the node that they belong to.

A formatter puts each line behind as many indent units as it is deep, joins lines by line breaks and
sets the definitions of a document apart by a blank line.
-/
namespace QueryDocument

structure Line where
  depth : Nat
  text : String
  deriving DecidableEq

namespace Operation

/-- The name and the variables in parentheses, which nothing separates. -/
def titleParts (name declared : Option String) : List String :=
  match name, declared with
  | none, none => []
  | _, _ => [name.getD "" ++ declared.getD ""]

/-- `none` for a query that has nothing but selections. -/
def signature (o : Operation) : Rendered (Option String) := do
  let declared ← renderVariables o.declared
  let directives ← renderDirectives false o.directives
  if o.kind = .query ∧ o.name.isNone ∧ declared.isNone ∧ directives.isNone then pure none
  else
    pure (some (" ".intercalate
      (o.kind.keyword :: titleParts o.name declared ++ directives.toList)))

end Operation

def FragmentDefinition.signature (f : FragmentDefinition) : Rendered String := do
  let directives ← renderDirectives false f.directives
  pure (" ".intercalate (["fragment " ++ f.name, "on " ++ f.typeCondition] ++ directives.toList))

def FragmentSpread.signature (s : FragmentSpread) : Rendered String := do
  let directives ← renderDirectives false s.directives
  pure (" ".intercalate (("..." ++ s.name) :: directives.toList))

def Field.signature (f : Field) : Rendered String := do
  let args ← renderArguments false f.arguments
  let directives ← renderDirectives false f.directives
  let label := match f.label with
    | some label => label ++ ": "
    | none => ""
  pure (" ".intercalate ((label ++ f.name ++ args) :: directives.toList))

def InlineFragment.signature (f : InlineFragment) : Rendered String := do
  let directives ← renderDirectives false f.directives
  let type := match f.typeCondition with
    | some type => ["on " ++ type]
    | none => []
  pure (" ".intercalate ("..." :: type ++ directives.toList))

/-- Braces around lines that stand one deeper. -/
def braced (depth : Nat) (inside : List Line) : List Line :=
  ⟨depth, "\x7b"⟩ :: inside ++ [⟨depth, "\x7d"⟩]

def FragmentSpread.lines (depth : Nat) (s : FragmentSpread) : Rendered (List Line) := do
  let signature ← s.signature
  pure [⟨depth, signature⟩]

mutual
/-- A field has braces only if it has selections. -/
def Field.lines (depth : Nat) : Field → Rendered (List Line)
  | ⟨name, label, args, ds, ss⟩ => do
    let signature ← Field.signature ⟨name, label, args, ds, ss⟩
    let inside ← Selection.linesOfAll (depth + 1) ss
    pure (⟨depth, signature⟩ :: if ss.isEmpty then [] else braced depth inside)

def InlineFragment.lines (depth : Nat) : InlineFragment → Rendered (List Line)
  | ⟨type, ds, ss⟩ => do
    let signature ← InlineFragment.signature ⟨type, ds, ss⟩
    let inside ← Selection.linesOfAll (depth + 1) ss
    pure (⟨depth, signature⟩ :: braced depth inside)

def Selection.lines (depth : Nat) : Selection → Rendered (List Line)
  | .field f => f.lines depth
  | .spread s => s.lines depth
  | .inlineFragment f => f.lines depth
  | .unknown => .error (.unknownNode .selection)

def Selection.linesOfAll (depth : Nat) : List Selection → Rendered (List Line)
  | [] => .ok []
  | s :: ss => do
    let first ← s.lines depth
    let rest ← Selection.linesOfAll depth ss
    pure (first ++ rest)
end

/-- The lines of all selections are those of each, in their order. -/
theorem Selection.linesOfAll_eq_mapM (depth : Nat) (ss : List Selection) :
    Selection.linesOfAll depth ss = List.flatten <$> ss.mapM (Selection.lines depth) := by
  induction ss with
  | nil => rfl
  | cons s ss ih => simp [Selection.linesOfAll, ih]

def Operation.lines (depth : Nat) (o : Operation) : Rendered (List Line) := do
  let signature ← o.signature
  let inside ← Selection.linesOfAll (depth + 1) o.selections
  pure (signature.toList.map (⟨depth, ·⟩) ++ braced depth inside)

def FragmentDefinition.lines (depth : Nat) (f : FragmentDefinition) : Rendered (List Line) := do
  let signature ← f.signature
  let inside ← Selection.linesOfAll (depth + 1) f.selections
  pure (⟨depth, signature⟩ :: braced depth inside)

def Definition.lines (depth : Nat) : Definition → Rendered (List Line)
  | .fragment f => f.lines depth
  | .operation o => o.lines depth
  | .unknown => .error (.unknownNode .definition)

def Selection.node : Selection → Rendered Node
  | .field f => .ok (.field f)
  | .spread s => .ok (.fragmentSpread s)
  | .inlineFragment f => .ok (.inlineFragment f)
  | .unknown => .error (.unknownNode .selection)

def Definition.node : Definition → Rendered Node
  | .fragment f => .ok (.fragmentDefinition f)
  | .operation o => .ok (.operation o)
  | .unknown => .error (.unknownNode .definition)

/-- The lines of a node in groups, of which a document has one for each definition and any other
node only one. -/
def Node.paragraphs : Node → Rendered (List (List Line))
  | .document d => d.definitions.mapM (Definition.lines 0)
  | .field f => do pure [← f.lines 0]
  | .fragmentDefinition f => do pure [← f.lines 0]
  | .fragmentSpread s => do pure [← s.lines 0]
  | .inlineFragment f => do pure [← f.lines 0]
  | .operation o => do pure [← o.lines 0]

structure Formatter where
  indentUnit : String := "  "
  deriving DecidableEq

namespace Formatter

def indent (f : Formatter) (depth : Nat) : String := String.join (List.replicate depth f.indentUnit)

@[simp] theorem indent_zero (f : Formatter) : f.indent 0 = "" := rfl

/-- The indentation has no character that its unit has not. -/
theorem notMem_indent {f : Formatter} {c : Char} (h : c ∉ f.indentUnit.toList) (depth : Nat) :
    c ∉ (f.indent depth).toList := by
  intro hc
  rw [indent, String.toList_join] at hc
  obtain ⟨unit, hu, hc⟩ := List.mem_flatMap.1 hc
  rw [List.eq_of_mem_replicate hu] at hc
  exact h hc

def line (f : Formatter) (level : Nat) (l : Line) : String := f.indent (level + l.depth) ++ l.text

def paragraph (f : Formatter) (level : Nat) (ls : List Line) : String :=
  "\n".intercalate (ls.map (f.line level))

/-- The text of a node with every line indented by `level` further units. -/
def format (f : Formatter) (level : Nat) (node : Node) : Rendered String := do
  let paragraphs ← node.paragraphs
  pure ("\n\n".intercalate (paragraphs.map (f.paragraph level)))

end Formatter

/-- The text of a node in the default layout. -/
def Node.render (node : Node) : Rendered String := Formatter.format {} 0 node

def Selection.render (s : Selection) : Rendered String := do
  let node ← s.node
  node.render

def Definition.render (d : Definition) : Rendered String := do
  let node ← d.node
  node.render

end QueryDocument
