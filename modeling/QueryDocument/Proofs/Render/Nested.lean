import QueryDocument.Proofs.Render.Layout

/-!
Texts within texts. The text of a node is its heading and, between braces, the texts that its
selections have by themselves one level deeper; the text of a document is those of its definitions.
So a text can be put together from the texts of its parts, though its lines are indented at the end
and all at once.
-/
namespace QueryDocument

/-- What stands before the block of a node, if anything does. -/
def Node.heading : Node → Rendered (Option String)
  | .document _ => .ok none
  | .field f => some <$> f.signature
  | .fragmentDefinition f => some <$> f.signature
  | .fragmentSpread s => some <$> s.signature
  | .inlineFragment f => some <$> f.signature
  | .operation o => o.signature

/-- The selections that a node has in braces. -/
def Node.block? : Node → Option (List Selection)
  | .document _ => none
  | .field f => if f.selections.isEmpty then none else some f.selections
  | .fragmentDefinition f => some f.selections
  | .fragmentSpread _ => none
  | .inlineFragment f => some f.selections
  | .operation o => some o.selections

namespace Formatter

/-- The braces of a block and the texts of the selections between them. -/
def block (f : Formatter) (level : Nat) (ss : List Selection) : Rendered (List String) := do
  let inside ← ss.mapM fun s => do f.format (level + 1) (← s.node)
  pure ((f.indent level ++ "\x7b") :: inside ++ [f.indent level ++ "\x7d"])

end Formatter

def Line.deeper (l : Line) : Line := ⟨l.depth + 1, l.text⟩

mutual
/-- A field one deeper has the same lines, each of them one deeper. Its own text does not know
the depth. -/
theorem Field.lines_succ (depth : Nat) : (f : Field) →
    f.lines (depth + 1) = List.map Line.deeper <$> f.lines depth
  | ⟨name, label, args, ds, ss⟩ => by
    rw [Field.lines, Field.lines, Selection.linesOfAll_succ (depth + 1) ss]
    cases Field.signature ⟨name, label, args, ds, ss⟩ with
    | error e => rfl
    | ok text =>
      cases Selection.linesOfAll (depth + 1) ss with
      | error e => rfl
      | ok inside =>
        cases ss with
        | nil => rfl
        | cons s ss => simp [braced, Line.deeper]

theorem InlineFragment.lines_succ (depth : Nat) : (f : InlineFragment) →
    f.lines (depth + 1) = List.map Line.deeper <$> f.lines depth
  | ⟨type, ds, ss⟩ => by
    rw [InlineFragment.lines, InlineFragment.lines, Selection.linesOfAll_succ (depth + 1) ss]
    cases InlineFragment.signature ⟨type, ds, ss⟩ with
    | error e => rfl
    | ok text =>
      cases Selection.linesOfAll (depth + 1) ss with
      | error e => rfl
      | ok inside => simp [braced, Line.deeper]

theorem Selection.lines_succ (depth : Nat) : (s : Selection) →
    s.lines (depth + 1) = List.map Line.deeper <$> s.lines depth
  | .field f => Field.lines_succ depth f
  | .spread s => by
    rw [Selection.lines, Selection.lines, FragmentSpread.lines, FragmentSpread.lines]
    cases s.signature <;> rfl
  | .inlineFragment f => InlineFragment.lines_succ depth f
  | .unknown => rfl

theorem Selection.linesOfAll_succ (depth : Nat) : (ss : List Selection) →
    Selection.linesOfAll (depth + 1) ss =
      List.map Line.deeper <$> Selection.linesOfAll depth ss
  | [] => rfl
  | s :: ss => by
    rw [Selection.linesOfAll, Selection.linesOfAll, Selection.lines_succ depth s,
      Selection.linesOfAll_succ depth ss]
    cases s.lines depth with
    | error e => rfl
    | ok first =>
      cases Selection.linesOfAll depth ss with
      | error e => rfl
      | ok rest => simp
end

namespace Formatter

variable (f : Formatter) (level : Nat)

theorem line_deeper (l : Line) : f.line level l.deeper = f.line (level + 1) l := by
  rw [line, line, Line.deeper, Nat.add_right_comm, Nat.add_assoc]

/-- Joining parts that are themselves joined joins all. A part without lines would leave a break
too many. -/
theorem intercalate_flatten {lss : List (List String)} (h : ∀ ls ∈ lss, ls ≠ []) :
    "\n".intercalate lss.flatten = "\n".intercalate (lss.map "\n".intercalate) := by
  induction lss with
  | nil => rfl
  | cons ls lss ih =>
    obtain ⟨hls, hlss⟩ := List.forall_mem_cons.1 h
    cases lss with
    | nil => simp
    | cons next lss =>
      have hnext : (next :: lss).flatten ≠ [] := by
        simp [(List.forall_mem_cons.1 hlss).1]
      rw [List.flatten_cons, String.intercalate_append_of_ne_nil hls hnext, ih hlss]
      exact String.intercalate_cons_cons.symm

/-- A node that is one paragraph. -/
theorem format_single {n : Node} {r : Rendered (List Line)}
    (h : n.paragraphs = do pure [← r]) : f.format level n = f.paragraph level <$> r := by
  rw [format, h]
  cases r with
  | error e => rfl
  | ok ls => simp

/-- A selection formatted on its own is one paragraph. -/
theorem format_selection (s : Selection) :
    (do f.format level (← s.node)) = f.paragraph level <$> s.lines 0 := by
  cases s with
  | field x => exact f.format_single level rfl
  | spread x => exact f.format_single level rfl
  | inlineFragment x => exact f.format_single level rfl
  | unknown => rfl

theorem format_definition (d : Definition) :
    (do f.format level (← d.node)) = f.paragraph level <$> d.lines 0 := by
  cases d with
  | fragment x => exact f.format_single level rfl
  | operation x => exact f.format_single level rfl
  | unknown => rfl

theorem intercalate_block (before : List String) (opening closing : String)
    {lss : List (List String)} (h : ∀ ls ∈ lss, ls ≠ []) :
    "\n".intercalate (before ++ opening :: lss.flatten ++ [closing]) =
      "\n".intercalate (before ++ opening :: lss.map "\n".intercalate ++ [closing]) := by
  let all := before.map ([·]) ++ [opening] :: lss ++ [[closing]]
  have hall : ∀ ls ∈ all, ls ≠ [] := by
    refine List.forall_mem_append.2 ⟨List.forall_mem_append.2 ⟨?_, ?_⟩, ?_⟩
    · exact List.forall_mem_map.2 fun _ _ => List.cons_ne_nil _ _
    · exact List.forall_mem_cons.2 ⟨List.cons_ne_nil _ _, h⟩
    · exact List.forall_mem_singleton.2 (List.cons_ne_nil _ _)
  have hsingle : (before.map ([·])).flatten = before := by
    rw [← List.flatMap_def, List.flatMap_singleton']
  simpa [all, hsingle, Function.comp_def] using intercalate_flatten hall

/-- Every selection that is rendered takes a line. -/
theorem lines_ne_nil {ss : List Selection} {lss : List (List Line)}
    (h : ss.mapM (Selection.lines 0) = .ok lss) : ∀ ls ∈ lss, ls ≠ [] := by
  refine Outcome.forall_of_mapM (fun s _ ls hls => ?_) h
  obtain ⟨rows, hrows⟩ := Selection.laid s hls
  cases hls.symm.trans hrows.lines_eq
  simpa using hrows.ne_nil

/-- A block is the brace, each selection as formatted at the next level, and the brace. -/
theorem block_eq (ss : List Selection) :
    f.block level ss = (fun lss => (f.indent level ++ "\x7b") ::
      lss.map (f.paragraph (level + 1)) ++ [f.indent level ++ "\x7d"]) <$>
        ss.mapM (Selection.lines 0) := by
  simp only [block, format_selection, Outcome.mapM_map]
  cases ss.mapM (Selection.lines 0) <;> rfl

/-- Indented all at once, the lines of a block are the texts of its parts. -/
theorem paragraph_block (heading : Rendered (Option String)) (ss : List Selection) :
    f.paragraph level <$> (do
      let text ← heading
      let inside ← Selection.linesOfAll 1 ss
      pure (text.toList.map (⟨0, ·⟩) ++ braced 0 inside)) =
    (do
      let text ← heading
      let block ← f.block level ss
      pure ("\n".intercalate (text.toList.map (f.indent level ++ ·) ++ block))) := by
  rw [Selection.linesOfAll_succ 0 ss, Selection.linesOfAll_eq_mapM, block_eq]
  -- A failure is the same on both sides, so let both parts succeed.
  cases heading with
  | error e => rfl
  | ok heading =>
  cases h : ss.mapM (Selection.lines 0) with
  | error e => rfl
  | ok lss =>
    let texts := lss.map fun ls => ls.map (f.line (level + 1))
    have htexts : ∀ ls ∈ texts, ls ≠ [] :=
      List.forall_mem_map.2 fun ls hls => by simpa using lines_ne_nil h ls hls
    have hdeeper : (lss.flatten.map Line.deeper).map (f.line level) = texts.flatten := by
      rw [List.map_map, List.map_flatten]
      congr 1
      exact List.map_congr_left fun ls _ => List.map_congr_left fun l _ => f.line_deeper level l
    have hlines : (heading.toList.map (Line.mk 0) ++ braced 0 (lss.flatten.map Line.deeper)).map
        (f.line level) = heading.toList.map (f.indent level ++ ·) ++
          (f.indent level ++ "\x7b") :: texts.flatten ++ [f.indent level ++ "\x7d"] := by
      rw [List.map_append, List.map_map, braced, List.map_append, List.map_cons, hdeeper,
        List.append_assoc]
      rfl
    have hparagraphs : texts.map "\n".intercalate = lss.map (f.paragraph (level + 1)) :=
      List.map_map
    change Except.ok (f.paragraph level _) = Except.ok ("\n".intercalate _)
    rw [paragraph, hlines, intercalate_block _ _ _ htexts, hparagraphs, List.append_assoc]

/-- A heading is one line at the level, and a missing one is no line. -/
theorem paragraph_heading (heading : Rendered (Option String)) :
    f.paragraph level <$> (do
      let text ← heading
      pure (text.toList.map (⟨0, ·⟩))) =
    (do
      let text ← heading
      pure ("\n".intercalate (text.toList.map (f.indent level ++ ·) ++ []))) := by
  cases heading with
  | error e => rfl
  | ok text => cases text <;> rfl

end Formatter

/-- The lines of the heading and of the block. -/
def Node.headedLines (n : Node) : Rendered (List Line) :=
  match n.block? with
  | none => do
    let text ← n.heading
    pure (text.toList.map (⟨0, ·⟩))
  | some ss => do
    let text ← n.heading
    let inside ← Selection.linesOfAll 1 ss
    pure (text.toList.map (⟨0, ·⟩) ++ braced 0 inside)

/-- Only a document has more than one paragraph. -/
theorem Node.paragraphs_eq {n : Node} (h : ∀ d, n ≠ .document d) :
    n.paragraphs = (do pure [← n.headedLines]) := by
  cases n with
  | document d => exact absurd rfl (h d)
  | field x =>
    obtain ⟨name, label, args, ds, ss⟩ := x
    rw [Node.paragraphs, Field.lines, Node.headedLines, Node.heading]
    cases ss <;> cases Field.signature _ <;> rfl
  | fragmentDefinition x =>
    rw [Node.paragraphs, FragmentDefinition.lines, Node.headedLines, Node.heading]
    cases x.signature <;> rfl
  | fragmentSpread x =>
    rw [Node.paragraphs, FragmentSpread.lines, Node.headedLines, Node.heading]
    cases x.signature <;> rfl
  | inlineFragment x =>
    obtain ⟨type, ds, ss⟩ := x
    rw [Node.paragraphs, InlineFragment.lines, Node.headedLines, Node.heading]
    cases InlineFragment.signature _ <;> rfl
  | operation x => rfl

namespace Formatter

variable (f : Formatter) (level : Nat)

/-- The text of a node other than a document, from its heading and its block. -/
theorem format_nested {n : Node} (h : ∀ d, n ≠ .document d) :
    f.format level n = (do
      let text ← n.heading
      let block ← match n.block? with
        | none => pure []
        | some ss => f.block level ss
      pure ("\n".intercalate (text.toList.map (f.indent level ++ ·) ++ block))) := by
  rw [f.format_single level (Node.paragraphs_eq h), Node.headedLines]
  cases n.block? with
  | none => exact f.paragraph_heading level n.heading
  | some ss => exact f.paragraph_block level n.heading ss

/-- The text of a document, from those of its definitions. -/
theorem format_document (d : Document) :
    f.format level (.document d) = (do
      let texts ← d.definitions.mapM fun x => do f.format level (← x.node)
      pure ("\n\n".intercalate texts)) := by
  simp only [format_definition, Outcome.mapM_map]
  rw [format, Node.paragraphs]
  cases d.definitions.mapM (Definition.lines 0) <;> rfl

/-- The text of a node as its parts make it: of a document the texts of its definitions, of any
other node its heading and then, between braces, the texts of its selections one level deeper. -/
def assembled : Node → Rendered String
  | .document d => do
    let texts ← d.definitions.mapM fun x => do f.format level (← x.node)
    pure ("\n\n".intercalate texts)
  | n => do
    let heading ← n.heading
    let block ← match n.block? with
      | none => pure []
      | some ss => f.block level ss
    pure ("\n".intercalate (heading.toList.map (f.indent level ++ ·) ++ block))

/-- Collecting the lines of the whole tree first gives what formatting each node into a text,
and joining the texts of its parts, gives. -/
theorem format_eq_assembled (n : Node) : f.format level n = f.assembled level n := by
  cases n with
  | document d => exact f.format_document level d
  | field | fragmentDefinition | fragmentSpread | inlineFragment | operation =>
    exact f.format_nested level nofun

end Formatter
end QueryDocument
