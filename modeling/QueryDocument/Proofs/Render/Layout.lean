import Mathlib.Data.List.Forall2
import QueryDocument.Proofs.Outcome
import QueryDocument.Render.Formatter

/-!
The layout of a tree. `Laid` says which rows a tree takes, from the tree alone: the row of its own
text and, one deeper, those of its selections between two braces. Whatever is rendered is laid out
so, and every formatter and every level only chooses what stands before the text of a row.
-/
namespace QueryDocument

/-- A line, and what it is there for. -/
inductive Row where
  | content (depth : Nat) (text : String)
  | opening (depth : Nat)
  | closing (depth : Nat)

namespace Row

def depth : Row → Nat
  | .content depth _ => depth
  | .opening depth => depth
  | .closing depth => depth

def text : Row → String
  | .content _ text => text
  | .opening _ => "\x7b"
  | .closing _ => "\x7d"

def line (r : Row) : Line := ⟨r.depth, r.text⟩

/-- The braces of the rows pair up, and the depth of a row tells how many pairs it stands in. -/
inductive Paired : Nat → List Row → Prop where
  | nil (depth : Nat) : Paired depth []
  | content {depth : Nat} {rows : List Row} (text : String) (h : Paired depth rows) :
    Paired depth (.content depth text :: rows)
  | block {depth : Nat} {inside rows : List Row} (hi : Paired (depth + 1) inside)
    (h : Paired depth rows) : Paired depth (.opening depth :: inside ++ .closing depth :: rows)

end Row

mutual
/-- Only a field may do without braces. -/
inductive Selection.Laid : Nat → Selection → List Row → Prop where
  | leaf {depth : Nat} {f : Field} {text : String} (hs : f.selections = [])
    (h : f.signature = .ok text) : Selection.Laid depth (.field f) [.content depth text]
  | field {depth : Nat} {f : Field} {text : String} {rows : List Row} (hs : f.selections ≠ [])
    (h : f.signature = .ok text) (hb : Selection.LaidBlock depth f.selections rows) :
    Selection.Laid depth (.field f) (.content depth text :: rows)
  | spread {depth : Nat} {s : FragmentSpread} {text : String} (h : s.signature = .ok text) :
    Selection.Laid depth (.spread s) [.content depth text]
  | inlineFragment {depth : Nat} {f : InlineFragment} {text : String} {rows : List Row}
    (h : f.signature = .ok text) (hb : Selection.LaidBlock depth f.selections rows) :
    Selection.Laid depth (.inlineFragment f) (.content depth text :: rows)

inductive Selection.LaidBlock : Nat → List Selection → List Row → Prop where
  | braces {depth : Nat} {ss : List Selection} {rows : List Row}
    (h : Selection.LaidAll (depth + 1) ss rows) :
    Selection.LaidBlock depth ss (.opening depth :: rows ++ [.closing depth])

inductive Selection.LaidAll : Nat → List Selection → List Row → Prop where
  | nil (depth : Nat) : Selection.LaidAll depth [] []
  | cons {depth : Nat} {s : Selection} {ss : List Selection} {first rest : List Row}
    (h : Selection.Laid depth s first) (hs : Selection.LaidAll depth ss rest) :
    Selection.LaidAll depth (s :: ss) (first ++ rest)
end

/-- A definition always has braces. -/
inductive Definition.Laid : Definition → List Row → Prop where
  | fragment {f : FragmentDefinition} {text : String} {rows : List Row}
    (h : f.signature = .ok text) (hb : Selection.LaidBlock 0 f.selections rows) :
    Definition.Laid (.fragment f) (.content 0 text :: rows)
  | operation {o : Operation} {text : String} {rows : List Row}
    (h : o.signature = .ok (some text)) (hb : Selection.LaidBlock 0 o.selections rows) :
    Definition.Laid (.operation o) (.content 0 text :: rows)
  | shorthand {o : Operation} {rows : List Row} (h : o.signature = .ok none)
    (hb : Selection.LaidBlock 0 o.selections rows) : Definition.Laid (.operation o) rows

/-- In groups, which are the definitions of a document, or the node as a whole. -/
inductive Node.Laid : Node → List (List Row) → Prop where
  | document {d : Document} {groups : List (List Row)}
    (h : List.Forall₂ Definition.Laid d.definitions groups) : Node.Laid (.document d) groups
  | fragmentDefinition {f : FragmentDefinition} {rows : List Row}
    (h : Definition.Laid (.fragment f) rows) : Node.Laid (.fragmentDefinition f) [rows]
  | operation {o : Operation} {rows : List Row} (h : Definition.Laid (.operation o) rows) :
    Node.Laid (.operation o) [rows]
  | field {f : Field} {rows : List Row} (h : Selection.Laid 0 (.field f) rows) :
    Node.Laid (.field f) [rows]
  | fragmentSpread {s : FragmentSpread} {rows : List Row} (h : Selection.Laid 0 (.spread s) rows) :
    Node.Laid (.fragmentSpread s) [rows]
  | inlineFragment {f : InlineFragment} {rows : List Row}
    (h : Selection.Laid 0 (.inlineFragment f) rows) : Node.Laid (.inlineFragment f) [rows]

namespace Row.Paired

variable {depth : Nat} {rows rows' : List Row}

/-- Rows that pair up one after the other pair up together. -/
theorem append (h : Paired depth rows) (h' : Paired depth rows') :
    Paired depth (rows ++ rows') := by
  induction h with
  | nil => exact h'
  | content text _ ih => exact .content text (ih h')
  | @block depth inside rows hi _ _ ih =>
    have hblock := Paired.block hi (ih h')
    rwa [List.append_assoc]

end Row.Paired

mutual
/-- A selection opens no brace that it does not close, and no row of it stands less deep than
its own text. -/
theorem Selection.Laid.paired {depth : Nat} {s : Selection} {rows : List Row} :
    Selection.Laid depth s rows → Row.Paired depth rows
  | .leaf _ _ => .content _ (.nil depth)
  | .field _ _ hb => .content _ (Selection.LaidBlock.paired hb)
  | .spread _ => .content _ (.nil depth)
  | .inlineFragment _ hb => .content _ (Selection.LaidBlock.paired hb)

theorem Selection.LaidBlock.paired {depth : Nat} {ss : List Selection} {rows : List Row} :
    Selection.LaidBlock depth ss rows → Row.Paired depth rows
  | .braces h => .block (Selection.LaidAll.paired h) (.nil depth)

theorem Selection.LaidAll.paired {depth : Nat} {ss : List Selection} {rows : List Row} :
    Selection.LaidAll depth ss rows → Row.Paired depth rows
  | .nil _ => .nil depth
  | .cons h hs => (Selection.Laid.paired h).append (Selection.LaidAll.paired hs)
end

/-- A definition stands in no braces, with or without a heading. -/
theorem Definition.Laid.paired {d : Definition} {rows : List Row} (h : d.Laid rows) :
    Row.Paired 0 rows := by
  cases h with
  | fragment _ hb => exact .content _ hb.paired
  | operation _ hb => exact .content _ hb.paired
  | shorthand _ hb => exact hb.paired

theorem Selection.Laid.ne_nil {depth : Nat} {s : Selection} {rows : List Row}
    (h : s.Laid depth rows) : rows ≠ [] := by
  cases h <;> exact List.cons_ne_nil _ _

/-- Without a heading there are still the two braces. -/
theorem Definition.Laid.ne_nil {d : Definition} {rows : List Row} (h : d.Laid rows) :
    rows ≠ [] := by
  cases h with
  | fragment => exact List.cons_ne_nil _ _
  | operation => exact List.cons_ne_nil _ _
  | shorthand _ hb =>
    cases hb with
    | braces => exact List.cons_ne_nil _ _

mutual
/-- From a rendered field a layout can be read off, by the recursion of the rendering. The
formatter is not asked. -/
theorem Field.laid {depth : Nat} : (f : Field) → {ls : List Line} → f.lines depth = .ok ls →
    ∃ rows, Selection.Laid depth (.field f) rows
  | ⟨name, label, args, ds, ss⟩, ls, h => by
    rw [Field.lines] at h
    obtain ⟨text, htext, h⟩ := Outcome.bind_eq_ok.1 h
    obtain ⟨inside, hinside, -⟩ := Outcome.bind_eq_ok.1 h
    obtain ⟨rows, hrows⟩ := Selection.laidAll ss hinside
    by_cases hss : ss = []
    · exact ⟨_, .leaf hss htext⟩
    · exact ⟨_, .field hss htext (.braces hrows)⟩

theorem InlineFragment.laid {depth : Nat} : (f : InlineFragment) → {ls : List Line} →
    f.lines depth = .ok ls → ∃ rows, Selection.Laid depth (.inlineFragment f) rows
  | ⟨type, ds, ss⟩, ls, h => by
    rw [InlineFragment.lines] at h
    obtain ⟨text, htext, h⟩ := Outcome.bind_eq_ok.1 h
    obtain ⟨inside, hinside, -⟩ := Outcome.bind_eq_ok.1 h
    obtain ⟨rows, hrows⟩ := Selection.laidAll ss hinside
    exact ⟨_, .inlineFragment htext (.braces hrows)⟩

theorem Selection.laid {depth : Nat} : (s : Selection) → {ls : List Line} →
    s.lines depth = .ok ls → ∃ rows, Selection.Laid depth s rows
  | .field f, _, h => Field.laid f h
  | .inlineFragment f, _, h => InlineFragment.laid f h
  | .spread s, _, h => by
    obtain ⟨text, htext, -⟩ := Outcome.bind_eq_ok.1 h
    exact ⟨_, .spread htext⟩
  | .unknown, _, h => nomatch h

theorem Selection.laidAll {depth : Nat} : (ss : List Selection) → {ls : List Line} →
    Selection.linesOfAll depth ss = .ok ls → ∃ rows, Selection.LaidAll depth ss rows
  | [], _, _ => ⟨[], .nil depth⟩
  | s :: ss, _, h => by
    rw [Selection.linesOfAll] at h
    obtain ⟨first, hfirst, h⟩ := Outcome.bind_eq_ok.1 h
    obtain ⟨rest, hrest, -⟩ := Outcome.bind_eq_ok.1 h
    obtain ⟨rows, hrows⟩ := Selection.laid s hfirst
    obtain ⟨rows', hrows'⟩ := Selection.laidAll ss hrest
    exact ⟨rows ++ rows', .cons hrows hrows'⟩
end

/-- A definition that is rendered has a layout, the shorthand query without the row of its
heading. -/
theorem Definition.laid {d : Definition} {ls : List Line} (h : d.lines 0 = .ok ls) :
    ∃ rows, d.Laid rows := by
  cases d with
  | fragment f =>
    obtain ⟨text, htext, h⟩ := Outcome.bind_eq_ok.1 h
    obtain ⟨inside, hinside, -⟩ := Outcome.bind_eq_ok.1 h
    obtain ⟨rows, hrows⟩ := Selection.laidAll f.selections hinside
    exact ⟨_, .fragment htext (.braces hrows)⟩
  | operation o =>
    obtain ⟨heading, htext, h⟩ := Outcome.bind_eq_ok.1 h
    obtain ⟨inside, hinside, -⟩ := Outcome.bind_eq_ok.1 h
    obtain ⟨rows, hrows⟩ := Selection.laidAll o.selections hinside
    cases heading with
    | none => exact ⟨_, .shorthand htext (.braces hrows)⟩
    | some text => exact ⟨_, .operation htext (.braces hrows)⟩
  | unknown => cases h

theorem Definition.laidAll {ds : List Definition} {lss : List (List Line)}
    (h : ds.mapM (Definition.lines 0) = .ok lss) :
    ∃ groups, List.Forall₂ Definition.Laid ds groups := by
  induction ds generalizing lss with
  | nil => exact ⟨[], .nil⟩
  | cons d ds ih =>
    rw [List.mapM_cons] at h
    obtain ⟨first, hfirst, h⟩ := Outcome.bind_eq_ok.1 h
    obtain ⟨rest, hrest, -⟩ := Outcome.bind_eq_ok.1 h
    obtain ⟨rows, hrows⟩ := Definition.laid hfirst
    obtain ⟨groups, hgroups⟩ := ih hrest
    exact ⟨rows :: groups, .cons hrows hgroups⟩

/-- Whatever is rendered has a layout. -/
theorem Node.laid {n : Node} {lss : List (List Line)} (h : n.paragraphs = .ok lss) :
    ∃ groups, n.Laid groups := by
  cases n with
  | document d =>
    obtain ⟨groups, hgroups⟩ := Definition.laidAll h
    exact ⟨groups, .document hgroups⟩
  | field f =>
    obtain ⟨ls, hls, -⟩ := Outcome.bind_eq_ok.1 h
    obtain ⟨rows, hrows⟩ := Field.laid f hls
    exact ⟨[rows], .field hrows⟩
  | fragmentDefinition f =>
    obtain ⟨ls, hls, -⟩ := Outcome.bind_eq_ok.1 h
    obtain ⟨rows, hrows⟩ := @Definition.laid (.fragment f) _ hls
    exact ⟨[rows], .fragmentDefinition hrows⟩
  | fragmentSpread s =>
    obtain ⟨ls, hls, -⟩ := Outcome.bind_eq_ok.1 h
    obtain ⟨rows, hrows⟩ := Selection.laid (.spread s) hls
    exact ⟨[rows], .fragmentSpread hrows⟩
  | inlineFragment f =>
    obtain ⟨ls, hls, -⟩ := Outcome.bind_eq_ok.1 h
    obtain ⟨rows, hrows⟩ := InlineFragment.laid f hls
    exact ⟨[rows], .inlineFragment hrows⟩
  | operation o =>
    obtain ⟨ls, hls, -⟩ := Outcome.bind_eq_ok.1 h
    obtain ⟨rows, hrows⟩ := @Definition.laid (.operation o) _ hls
    exact ⟨[rows], .operation hrows⟩

mutual
/-- Where there is a layout the selection is rendered, to exactly its rows. -/
theorem Selection.Laid.lines_eq {depth : Nat} {s : Selection} {rows : List Row} :
    s.Laid depth rows → s.lines depth = .ok (rows.map Row.line)
  | .leaf (f := ⟨name, label, args, ds, ss⟩) hs h => by
    obtain rfl : ss = [] := hs
    rw [Selection.lines, Field.lines, h]
    rfl
  | .field (f := ⟨name, label, args, ds, ss⟩) hs h (.braces hb) => by
    rw [Selection.lines, Field.lines, h, hb.lines_eq]
    have hss : ss.isEmpty = false := by simpa using hs
    simp [hss, braced, Row.line, Row.depth, Row.text]
  | .spread h => by
    rw [Selection.lines, FragmentSpread.lines, h]
    rfl
  | .inlineFragment (f := ⟨type, ds, ss⟩) h (.braces hb) => by
    rw [Selection.lines, InlineFragment.lines, h, hb.lines_eq]
    simp [braced, Row.line, Row.depth, Row.text]

theorem Selection.LaidAll.lines_eq {depth : Nat} {ss : List Selection} {rows : List Row} :
    Selection.LaidAll depth ss rows → Selection.linesOfAll depth ss = .ok (rows.map Row.line)
  | .nil _ => rfl
  | .cons h hs => by
    rw [Selection.linesOfAll, h.lines_eq, hs.lines_eq, List.map_append]
    rfl
end

/-- The heading, if there is one, and then the block are all the lines of a definition. -/
theorem Definition.Laid.lines_eq {d : Definition} {rows : List Row} (h : d.Laid rows) :
    d.lines 0 = .ok (rows.map Row.line) := by
  cases h with
  | fragment h hb =>
    obtain ⟨hb⟩ := hb
    rw [Definition.lines, FragmentDefinition.lines, h, hb.lines_eq]
    simp [braced, Row.line, Row.depth, Row.text]
  | operation h hb =>
    obtain ⟨hb⟩ := hb
    rw [Definition.lines, Operation.lines, h, hb.lines_eq]
    simp [braced, Row.line, Row.depth, Row.text]
  | shorthand h hb =>
    obtain ⟨hb⟩ := hb
    rw [Definition.lines, Operation.lines, h, hb.lines_eq]
    simp [braced, Row.line, Row.depth, Row.text]

theorem Definition.lines_eq_of_laid {ds : List Definition} {groups : List (List Row)}
    (h : List.Forall₂ Definition.Laid ds groups) :
    ds.mapM (Definition.lines 0) = .ok (groups.map (List.map Row.line)) := by
  induction h with
  | nil => rfl
  | cons h _ ih =>
    rw [List.mapM_cons, h.lines_eq, ih]
    rfl

/-- A layout has all the lines of its tree, in groups. -/
theorem Node.Laid.paragraphs_eq {n : Node} {groups : List (List Row)} (h : n.Laid groups) :
    n.paragraphs = .ok (groups.map (List.map Row.line)) := by
  cases h with
  | document h => exact Definition.lines_eq_of_laid h
  | field h => exact congrArg (fun r => do pure [← r]) h.lines_eq
  | fragmentDefinition h => exact congrArg (fun r => do pure [← r]) h.lines_eq
  | fragmentSpread h => exact congrArg (fun r => do pure [← r]) h.lines_eq
  | inlineFragment h => exact congrArg (fun r => do pure [← r]) h.lines_eq
  | operation h => exact congrArg (fun r => do pure [← r]) h.lines_eq

/-- What holds of the rows of the definitions in a node, and of the definition or the selection that
it is, holds of all its groups. -/
theorem Node.Laid.forall_groups {n : Node} {groups : List (List Row)} {P : List Row → Prop}
    (h : n.Laid groups)
    (hin : ∀ doc, n = .document doc → ∀ d ∈ doc.definitions, ∀ rows, d.Laid rows → P rows)
    (hd : ∀ d : Definition, d.node = .ok n → ∀ rows, d.Laid rows → P rows)
    (hs : ∀ s : Selection, s.node = .ok n → ∀ rows, s.Laid 0 rows → P rows) :
    ∀ rows ∈ groups, P rows := by
  cases h with
  | @document doc _ h =>
    have hin := hin doc rfl
    generalize doc.definitions = ds at h hin
    induction h with
    | nil => nofun
    | cons h _ ih =>
      rw [List.forall_mem_cons] at hin
      exact List.forall_mem_cons.2 ⟨hin.1 _ h, ih hin.2⟩
  | field h => exact List.forall_mem_singleton.2 (hs _ rfl _ h)
  | fragmentDefinition h => exact List.forall_mem_singleton.2 (hd _ rfl _ h)
  | fragmentSpread h => exact List.forall_mem_singleton.2 (hs _ rfl _ h)
  | inlineFragment h => exact List.forall_mem_singleton.2 (hs _ rfl _ h)
  | operation h => exact List.forall_mem_singleton.2 (hd _ rfl _ h)

/-- In every group the depths begin at zero again. -/
theorem Node.Laid.paired {n : Node} {groups : List (List Row)} (h : n.Laid groups) :
    ∀ rows ∈ groups, Row.Paired 0 rows :=
  h.forall_groups (fun _ _ _ _ _ => Definition.Laid.paired) (fun _ _ _ => Definition.Laid.paired)
    fun _ _ _ => Selection.Laid.paired

/-- No group is empty, so that an empty row can only be the one between two groups. -/
theorem Node.Laid.ne_nil {n : Node} {groups : List (List Row)} (h : n.Laid groups) :
    ∀ rows ∈ groups, rows ≠ [] :=
  h.forall_groups (fun _ _ _ _ _ => Definition.Laid.ne_nil) (fun _ _ _ => Definition.Laid.ne_nil)
    fun _ _ _ => Selection.Laid.ne_nil

namespace Row

/-- The groups one after the other, with an empty row between any two. -/
def spaced (groups : List (List Row)) : List (Option Row) :=
  [none].intercalate (groups.map (List.map some))

theorem spaced_singleton (rows : List Row) : spaced [rows] = rows.map some :=
  List.intercalate_singleton

/-- The empty row belongs to neither of the two groups. -/
theorem spaced_cons_cons (rows next : List Row) (groups : List (List Row)) :
    spaced (rows :: next :: groups) = rows.map some ++ [none] ++ spaced (next :: groups) :=
  List.intercalate_cons_cons

theorem spaced_ne_nil {rows : List Row} (h : rows ≠ []) (groups : List (List Row)) :
    spaced (rows :: groups) ≠ [] := by
  cases groups with
  | nil =>
    rw [spaced_singleton]
    simpa using h
  | cons next groups =>
    rw [spaced_cons_cons]
    simp

/-- No row is made up by the spacing but the empty one. -/
theorem mem_spaced {groups : List (List Row)} {r : Row} (h : some r ∈ spaced groups) :
    ∃ rows ∈ groups, r ∈ rows := by
  induction groups with
  | nil => cases h
  | cons rows groups ih =>
    cases groups with
    | nil =>
      rw [spaced_singleton] at h
      exact ⟨rows, List.mem_cons_self, by simpa using h⟩
    | cons next groups =>
      rw [spaced_cons_cons] at h
      simp only [List.mem_append, List.mem_map, List.mem_singleton] at h
      obtain (⟨r', hr', heq⟩ | h) | h := h
      · cases heq
        exact ⟨rows, List.mem_cons_self, hr'⟩
      · cases h
      · obtain ⟨rows', hrows', hr⟩ := ih h
        exact ⟨rows', List.mem_cons_of_mem rows hrows', hr⟩

end Row

namespace Formatter

variable (f : Formatter) (level : Nat)

/-- The indent unit as often as the level and the depth of the row tell together, and its text; an
empty row is not indented. -/
def row : Option Row → String
  | none => ""
  | some r => String.join (List.replicate (level + r.depth) f.indentUnit) ++ r.text

/-- The rows on lines of their own, with an empty row between any two groups. -/
def textOf (groups : List (List Row)) : String :=
  "\n".intercalate ((Row.spaced groups).map (f.row level))

theorem paragraph_eq (rows : List Row) :
    f.paragraph level (rows.map Row.line) =
      "\n".intercalate ((rows.map some).map (f.row level)) := by
  rw [paragraph, List.map_map, List.map_map]
  rfl

/-- Two line breaks between groups are an empty line between them. -/
theorem textOf_eq {groups : List (List Row)} (h : ∀ rows ∈ groups, rows ≠ []) :
    f.textOf level groups =
      "\n\n".intercalate (groups.map fun rows => f.paragraph level (rows.map Row.line)) := by
  induction groups with
  | nil => rfl
  | cons rows groups ih =>
    obtain ⟨hrows, hgroups⟩ := List.forall_mem_cons.1 h
    cases groups with
    | nil =>
      rw [textOf, Row.spaced_singleton, List.map_cons, List.map_nil,
        String.intercalate_singleton, paragraph_eq]
    | cons next groups =>
      let first := (rows.map some).map (f.row level)
      let rest := (Row.spaced (next :: groups)).map (f.row level)
      have hfirst : first ≠ [] := by simpa [first] using hrows
      have hrest : rest ≠ [] := by
        simpa [rest] using Row.spaced_ne_nil (List.forall_mem_cons.1 hgroups).1 groups
      have hbreaks : ∀ text : String, text ++ "\n" ++ "" ++ "\n" = text ++ "\n\n" := by
        intro text
        rw [String.append_empty, String.append_assoc]
        rfl
      calc f.textOf level (rows :: next :: groups)
        _ = "\n".intercalate (first ++ [""] ++ rest) := by
          rw [textOf, Row.spaced_cons_cons, List.map_append, List.map_append]
          rfl
        _ = "\n".intercalate first ++ "\n" ++ "" ++ "\n" ++ "\n".intercalate rest := by
          rw [String.intercalate_append_of_ne_nil (by simp) hrest,
            String.intercalate_append_of_ne_nil hfirst (by simp), String.intercalate_singleton]
        _ = f.paragraph level (rows.map Row.line) ++ "\n\n" ++ f.textOf level (next :: groups) := by
          rw [hbreaks, paragraph_eq, textOf]
        _ = _ := by
          rw [ih hgroups]
          exact String.intercalate_cons_cons.symm

/-- The formatter adds nothing to a layout but the indentation and the line breaks, and it takes
nothing away. -/
theorem format_of_laid {n : Node} {groups : List (List Row)} (h : n.Laid groups) :
    f.format level n = .ok (f.textOf level groups) := by
  rw [format, h.paragraphs_eq, f.textOf_eq level h.ne_nil, Outcome.ok_bind, List.map_map]
  rfl

end Formatter

end QueryDocument
