import QueryDocument.Proofs.Binary64.Text
import QueryDocument.Proofs.Grammar.Spelling
import QueryDocument.Proofs.Render.Blanked
import QueryDocument.Render.Formatter

/-!
No string content leaves its literal. A tree is rendered like the same tree with all strings empty,
but for what stands between the quotes of its literals; and these literals, read one by one, are the
strings of the tree. The induction carries two renderings along, of a tree and of the blanked tree,
which fail alike or differ by what `Text.Weaves` allows.
-/
namespace QueryDocument

open Text (Quoteless Weaves)

/-- Item by item the two lists are related, and what the items need is put together. -/
inductive Together {α : Type} (R : α → α → List String → Prop) :
    List α → List α → List String → Prop where
  | nil : Together R [] [] []
  | cons {a b : α} {as bs : List α} {ss ts : List String} (h : R a b ss)
    (hs : Together R as bs ts) : Together R (a :: as) (b :: bs) (ss ++ ts)

namespace Together

variable {α β : Type} {R : α → α → List String → Prop} {S : β → β → List String → Prop}
  {as bs : List α} {ss ts : List String}

theorem singleton {a b : α} (h : R a b ss) : Together R [a] [b] ss := by
  have hs := cons h nil
  rwa [List.append_nil] at hs

theorem append {cs ds : List α} (h : Together R as bs ss) (h' : Together R cs ds ts) :
    Together R (as ++ cs) (bs ++ ds) (ss ++ ts) := by
  induction h with
  | nil => exact h'
  | cons h _ ih =>
    rw [List.append_assoc]
    exact .cons h ih

theorem map {f : α → β} (hf : ∀ a b ss, R a b ss → S (f a) (f b) ss) (h : Together R as bs ss) :
    Together S (as.map f) (bs.map f) ss := by
  induction h with
  | nil => exact .nil
  | cons h _ ih => exact .cons (hf _ _ _ h) ih

end Together

/-- Both computations succeed with related results, or both fail with the same error. -/
inductive Alike {α : Type} (R : α → α → List String → Prop) :
    Rendered α → Rendered α → List String → Prop where
  | ok {a b : α} {ss : List String} (h : R a b ss) : Alike R (.ok a) (.ok b) ss
  | error (e : RenderError) (ss : List String) : Alike R (.error e) (.error e) ss

namespace Alike

variable {α β : Type} {R : α → α → List String → Prop} {S : β → β → List String → Prop}
  {r r' : Rendered α} {ss ts : List String}

/-- The two runs fail together and with the same error, or go on together. Their strings are
collected in the order of the runs. -/
theorem bind {f g : α → Rendered β} (h : Alike R r r' ss)
    (hf : ∀ a b, R a b ss → Alike S (f a) (g b) ts) : Alike S (r >>= f) (r' >>= g) ts := by
  cases h with
  | ok h => exact hf _ _ h
  | error e => exact .error e ts

/-- A last step that only builds the result collects no string. -/
theorem pure {f g : α → β} (h : Alike R r r' ss) (hf : ∀ a b, R a b ss → S (f a) (g b) ts) :
    Alike S (r >>= fun a => Pure.pure (f a)) (r' >>= fun a => Pure.pure (g a)) ts :=
  h.bind fun a b hab => .ok (hf a b hab)

/-- A loop collects the strings of its elements in their order. -/
theorem mapM {γ : Type} {f g : γ → Rendered α} {strings : γ → List String} {xs : List γ}
    (h : ∀ x ∈ xs, Alike R (f x) (g x) (strings x)) :
    Alike (Together R) (xs.mapM f) (xs.mapM g) (xs.flatMap strings) := by
  induction xs with
  | nil => exact .ok .nil
  | cons x xs ih =>
    rw [List.forall_mem_cons] at h
    rw [List.mapM_cons, List.mapM_cons, List.flatMap_cons]
    exact h.1.bind fun _ _ hfirst => (ih h.2).pure fun _ _ hrest => .cons hfirst hrest

/-- Both runs take the same branch, since nothing that is tested depends on a string. -/
theorem ite {p q : Prop} [Decidable p] [Decidable q] {s s' : Rendered α} (hpq : p ↔ q)
    (hp : p → Alike R r r' ss) (hn : ¬ p → Alike R s s' ss) :
    Alike R (if p then r else s) (if q then r' else s') ss := by
  by_cases h : p
  · rw [if_pos h, if_pos (hpq.1 h)]
    exact hp h
  · rw [if_neg h, if_neg (mt hpq.2 h)]
    exact hn h

end Alike

namespace Text.Weaves

variable {s s' t t' : String} {ss ts : List String} {xs ys : List String}

/-- Text without quotes around a woven one adds no string. -/
theorem between {left right : String} (hl : Quoteless left) (hr : Quoteless right)
    (h : Weaves t t' ss) : Weaves (left ++ t ++ right) (left ++ t' ++ right) ss := by
  have hall := ((ofQuoteless hl).append h).append (ofQuoteless hr)
  rwa [List.nil_append, List.append_nil] at hall

theorem behind {left : String} (hl : Quoteless left) (h : Weaves t t' ss) :
    Weaves (left ++ t) (left ++ t') ss := (ofQuoteless hl).append h

/-- Separators without quotes add no string. -/
theorem intercalate {sep : String} (hsep : Quoteless sep) (h : Together Weaves xs ys ss) :
    Weaves (sep.intercalate xs) (sep.intercalate ys) ss := by
  induction h with
  | nil =>
    rw [String.intercalate_nil]
    exact ofQuoteless (by decide)
  | @cons x y xs ys ss ts hx hxs ih =>
    cases hxs with
    | nil =>
      rwa [String.intercalate_singleton, String.intercalate_singleton, List.append_nil]
    | cons h hs =>
      rw [String.intercalate_cons_cons, String.intercalate_cons_cons]
      have hall := (hx.append (ofQuoteless hsep)).append ih
      rwa [List.append_nil] at hall

end Text.Weaves

theorem Numeral.Literal.quoteless {n : Numeral} (h : n.Literal) {text : String}
    (ht : text.toList = n.chars) : Quoteless text :=
  h.notMem_toList ht (by decide) (by decide)

namespace Value

mutual
/-- The literal of a string is where the two runs differ, and the only string collected there is
its text. Any other value is the same in both but for its parts. -/
theorem render_alike (c : Bool) : (v : Value) → v.Quoteless →
    Alike Weaves (v.render c) (v.blanked.render c) v.strings
  | .bool b, _ => .ok (.ofQuoteless (by cases b <;> decide))
  | .enum name, h => by
    rw [blanked, render]
    split
    · exact .error _ _
    · exact .ok (.ofQuoteless h)
  | .float x, _ => by
    rw [blanked, render]
    split
    · rename_i hf
      refine .ok (.ofQuoteless ((Binary64.numeral_literal hf).quoteless ?_))
      rw [Binary64.text, String.toList_ofList, Binary64.chars_eq_numeral_chars hf]
    · exact .error _ _
  | .int n, _ =>
    .ok (.ofQuoteless ((Numeral.ofInt_literal _).quoteless (Numeral.toList_toString_eq_chars _)))
  | .list items, h => by
    rw [blanked, render, render]
    exact (renderItems_alike c items h).pure fun _ _ hitems =>
      .between (by decide) (by decide) (.intercalate (by decide) hitems)
  | .null, _ => .ok (.ofQuoteless (by decide))
  | .object fields, h => by
    rw [blanked, render, render]
    exact (renderFields_alike c fields h).pure fun _ _ hfields =>
      .between (by decide) (by decide) (.intercalate (by decide) hfields)
  | .string text, _ => .ok (.quote text)
  | .var name, h => by
    rw [blanked, render]
    split
    · exact .error _ _
    · split
      · exact .error _ _
      · exact .ok (.ofQuoteless (.append (by decide) h))

theorem renderItems_alike (c : Bool) : (vs : List Value) → QuotelessItems vs →
    Alike (Together Weaves) (renderItems c vs) (renderItems c (blankedItems vs))
      (stringsOfItems vs)
  | [], _ => .ok .nil
  | v :: vs, h => by
    rw [blankedItems, renderItems, renderItems, stringsOfItems]
    exact (render_alike c v h.1).bind fun _ _ hv =>
      (renderItems_alike c vs h.2).pure fun _ _ hvs => .cons hv hvs

/-- The keys of an object are the same in both runs. -/
theorem renderFields_alike (c : Bool) : (fs : List (String × Value)) → QuotelessFields fs →
    Alike (Together Weaves) (renderFields c fs) (renderFields c (blankedFields fs))
      (stringsOfFields fs)
  | [], _ => .ok .nil
  | (k, v) :: fs, h => by
    rw [blankedFields, renderFields, renderFields, stringsOfFields]
    exact (render_alike c v h.2.1).bind fun _ _ hv =>
      (renderFields_alike c fs h.2.2).pure fun _ _ hfs =>
        .cons (.behind (h.1.append (by decide)) hv) hfs
end

end Value

/-- No arguments are no text at all in both runs. -/
theorem renderArguments_alike (c : Bool) {args : Arguments} (h : Value.QuotelessFields args) :
    Alike Weaves (renderArguments c args) (renderArguments c (Value.blankedFields args))
      (Value.stringsOfFields args) := by
  cases args with
  | nil => exact .ok (.ofQuoteless (by decide))
  | cons a args =>
    exact (Value.renderFields_alike c _ h).pure fun _ _ hfields =>
      .between (by decide) (by decide) (.intercalate (by decide) hfields)

/-- A name without quotes is part of what both runs share. -/
theorem Directive.render_alike (c : Bool) {d : Directive} (h : d.Quoteless) :
    Alike Weaves (d.render c) (d.blanked.render c) d.strings :=
  (renderArguments_alike c h.arguments).pure fun _ _ hargs =>
    .behind (.append (by split <;> decide) h.name) hargs

/-- Texts that stand side by side and may be missing. -/
abbrev WeavesAny (a b : Option String) (ss : List String) : Prop :=
  Together Weaves a.toList b.toList ss

/-- A part is left out of both texts or of neither. -/
theorem WeavesAny.isNone_eq {a b : Option String} {ss : List String} (h : WeavesAny a b ss) :
    a.isNone = b.isNone := by
  cases a <;> cases b <;> first | rfl | cases h

theorem WeavesAny.of_isNone {a b : Option String} {ss : List String} (h : WeavesAny a b ss)
    (ha : a.isNone = true) : ss = [] := by
  match a, b, h with
  | none, none, .nil => rfl

/-- Blanking the strings does not empty a list of directives. -/
theorem renderDirectives_alike (c : Bool) {ds : List Directive} (h : ∀ d ∈ ds, d.Quoteless) :
    Alike WeavesAny (renderDirectives c ds) (renderDirectives c (ds.map Directive.blanked))
      (Directive.stringsOfAll ds) := by
  cases ds with
  | nil => exact .ok .nil
  | cons d ds =>
    have hall := Alike.mapM (f := Directive.render c) (g := Directive.render c ∘ Directive.blanked)
      fun x hx => Directive.render_alike c (h x hx)
    rw [← List.mapM_map] at hall
    exact hall.pure fun _ _ hds => .singleton (.intercalate (by decide) hds)

/-- A default of null is still a default. -/
theorem renderDefault_alike {default : Option Value} (h : ∀ v ∈ default, v.Quoteless) :
    Alike (Together Weaves) (renderDefault default) (renderDefault (default.map Value.blanked))
      (VariableDefinition.stringsOfDefault default) := by
  cases default with
  | none => exact .ok .nil
  | some v =>
    exact (Value.render_alike true v (h v rfl)).pure fun _ _ hv =>
      .singleton (.behind (by decide) hv)

theorem Together.ofQuoteless {ts : List String} (h : ∀ t ∈ ts, Quoteless t) :
    Together Weaves ts ts [] := by
  induction ts with
  | nil => exact .nil
  | cons t ts ih =>
    rw [List.forall_mem_cons] at h
    exact .cons (.ofQuoteless h.1) (ih h.2)

/-- The strings of a variable are those of its default and then those of its directives, as they
are written. -/
theorem VariableDefinition.render_alike {name : String} {d : VariableDefinition}
    (hn : Quoteless name) (h : d.Quoteless) :
    Alike Weaves (d.render name) (d.blanked.render name) d.strings := by
  refine (renderDefault_alike h.default).bind fun _ _ hdefault => ?_
  refine (renderDirectives_alike true h.directives).pure fun _ _ hdirectives => ?_
  refine .intercalate (by decide) (.append (.append (.ofQuoteless ?_) hdefault) hdirectives)
  have hkey : Quoteless ("$" ++ name ++ ":") := .append (.append (by decide) hn) (by decide)
  exact List.forall_mem_cons.2 ⟨hkey, List.forall_mem_singleton.2 h.type⟩

theorem renderVariables_alike {ds : Keyed VariableDefinition}
    (h : ∀ d ∈ ds, Quoteless d.1 ∧ d.2.Quoteless) :
    Alike WeavesAny (renderVariables ds)
      (renderVariables (ds.map fun d => (d.1, d.2.blanked))) (ds.flatMap fun d => d.2.strings) := by
  cases ds with
  | nil => exact .ok .nil
  | cons d ds =>
    have hall := Alike.mapM (f := fun d : String × VariableDefinition => d.2.render d.1)
      (g := (fun d => d.2.render d.1) ∘ fun d => (d.1, d.2.blanked))
      fun x hx => VariableDefinition.render_alike (h x hx).1 (h x hx).2
    rw [← List.mapM_map] at hall
    exact hall.pure fun _ _ hds =>
      .singleton (.between (by decide) (by decide) (.intercalate (by decide) hds))

theorem FragmentSpread.signature_alike {s : FragmentSpread} (h : s.Quoteless) :
    Alike Weaves s.signature s.blanked.signature (Directive.stringsOfAll s.directives) := by
  refine (renderDirectives_alike false h.directives).pure fun _ _ hds => ?_
  exact .intercalate (by decide) (.cons (.ofQuoteless (.append (by decide) h.name)) hds)

/-- The strings of the arguments come before those of the directives. -/
theorem Field.signature_alike {f : Field} (h : f.Quoteless) :
    Alike Weaves f.signature f.blanked.signature
      (Value.stringsOfFields f.arguments ++ Directive.stringsOfAll f.directives) := by
  obtain ⟨name, label, args, ds, ss⟩ := f
  obtain ⟨hname, hlabel, hargs, hds, -⟩ := h
  refine (renderArguments_alike false hargs).bind fun _ _ hargs => ?_
  refine (renderDirectives_alike false hds).pure fun _ _ hds => ?_
  refine .intercalate (by decide) (.cons (.behind (.append ?_ hname) hargs) hds)
  cases label with
  | none => exact (by decide : Quoteless "")
  | some label => exact .append (hlabel label rfl) (by decide)

theorem InlineFragment.signature_alike {f : InlineFragment} (h : f.Quoteless) :
    Alike Weaves f.signature f.blanked.signature (Directive.stringsOfAll f.directives) := by
  obtain ⟨type, ds, ss⟩ := f
  obtain ⟨htype, hds, -⟩ := h
  refine (renderDirectives_alike false hds).pure fun _ _ hds => ?_
  refine .intercalate (by decide) (.append (.ofQuoteless ?_) hds)
  refine List.forall_mem_cons.2 ⟨by decide, ?_⟩
  cases type with
  | none => exact List.forall_mem_nil _
  | some type => exact List.forall_mem_singleton.2 (.append (by decide) (htype type rfl))

theorem FragmentDefinition.signature_alike {f : FragmentDefinition} (h : f.Quoteless) :
    Alike Weaves f.signature f.blanked.signature (Directive.stringsOfAll f.directives) := by
  refine (renderDirectives_alike false h.directives).pure fun _ _ hds => ?_
  have hname : Quoteless ("fragment " ++ f.name) := .append (by decide) h.name
  have htype : Quoteless ("on " ++ f.typeCondition) := .append (by decide) h.typeCondition
  refine .intercalate (by decide) (.append (.ofQuoteless ?_) hds)
  exact List.forall_mem_cons.2 ⟨hname, List.forall_mem_singleton.2 htype⟩

theorem Operation.titleParts_weave {name a b : Option String} {ss : List String}
    (hn : ∀ n ∈ name, Quoteless n) (h : WeavesAny a b ss) :
    Together Weaves (titleParts name a) (titleParts name b) ss := by
  have hname : Quoteless (name.getD "") := by
    cases name with
    | none => exact (by decide : Quoteless "")
    | some name => exact hn name rfl
  match a, b, h with
  | none, none, .nil =>
    cases name with
    | none => exact .nil
    | some name => exact .singleton (.ofQuoteless (.append hname (by decide)))
  | some a, some b, .cons h .nil =>
    cases name with
    | none => exact .cons (.behind hname h) .nil
    | some name => exact .cons (.behind hname h) .nil

/-- Whether an operation has a heading does not depend on its strings. -/
theorem Operation.signature_alike {o : Operation} (h : o.Quoteless) :
    Alike WeavesAny o.signature o.blanked.signature
      ((o.declared.flatMap fun d => d.2.strings) ++ Directive.stringsOfAll o.directives) := by
  refine (renderVariables_alike h.declared).bind fun a b hvars => ?_
  refine (renderDirectives_alike false h.directives).bind fun c d hds => ?_
  refine .ite (by rw [hvars.isNone_eq, hds.isNone_eq]; rfl) (fun hnone => ?_) fun _ => ?_
  · rw [hvars.of_isNone hnone.2.2.1, hds.of_isNone hnone.2.2.2]
    exact .ok .nil
  · have hkind : Quoteless o.kind.keyword := by cases o.kind <;> decide
    have hparts := (Together.cons (.ofQuoteless hkind) (titleParts_weave h.name hvars)).append hds
    exact .ok (Together.singleton (Weaves.intercalate (by decide) hparts))

/-- Two lines at the same depth. -/
def WeavesLine (a b : Line) (ss : List String) : Prop := a.depth = b.depth ∧ Weaves a.text b.text ss

theorem braced_weave {depth : Nat} {as bs : List Line} {ss : List String}
    (h : Together WeavesLine as bs ss) :
    Together WeavesLine (braced depth as) (braced depth bs) ss := by
  have hbrace (text : String) (hq : Quoteless text) : WeavesLine ⟨depth, text⟩ ⟨depth, text⟩ [] :=
    ⟨rfl, .ofQuoteless hq⟩
  have hall := (Together.cons (hbrace "\x7b" (by decide)) h).append
    (.singleton (hbrace "\x7d" (by decide)))
  rwa [List.append_nil] at hall

theorem FragmentSpread.lines_alike (depth : Nat) {s : FragmentSpread} (h : s.Quoteless) :
    Alike (Together WeavesLine) (s.lines depth) (s.blanked.lines depth)
      (Directive.stringsOfAll s.directives) :=
  (signature_alike h).pure fun _ _ hs => .singleton ⟨rfl, hs⟩

mutual
/-- The strings of a field come before those of its selections. -/
theorem Field.lines_alike (depth : Nat) : (f : Field) → f.Quoteless →
    Alike (Together WeavesLine) (f.lines depth) (f.blanked.lines depth) f.strings
  | ⟨name, label, args, ds, ss⟩, h => by
    rw [Field.strings, Field.blanked, Field.lines, Field.lines]
    refine (Field.signature_alike h).bind fun _ _ hsignature => ?_
    refine (Selection.linesOfAll_alike (depth + 1) ss h.2.2.2.2).pure fun _ _ hinside => ?_
    refine .cons ⟨rfl, hsignature⟩ ?_
    -- A field without selections has no braces, with nothing between them either.
    cases ss with
    | nil => exact .nil
    | cons s ss => exact braced_weave hinside

theorem InlineFragment.lines_alike (depth : Nat) : (f : InlineFragment) → f.Quoteless →
    Alike (Together WeavesLine) (f.lines depth) (f.blanked.lines depth) f.strings
  | ⟨type, ds, ss⟩, h => by
    rw [InlineFragment.strings, InlineFragment.blanked, InlineFragment.lines, InlineFragment.lines]
    refine (InlineFragment.signature_alike h).bind fun _ _ hsignature => ?_
    refine (Selection.linesOfAll_alike (depth + 1) ss h.2.2).pure fun _ _ hinside => ?_
    exact .cons ⟨rfl, hsignature⟩ (braced_weave hinside)

/-- A selection that cannot be rendered fails in both runs alike. -/
theorem Selection.lines_alike (depth : Nat) : (s : Selection) → s.Quoteless →
    Alike (Together WeavesLine) (s.lines depth) (s.blanked.lines depth) s.strings
  | .field f, h => Field.lines_alike depth f h
  | .spread _, h => FragmentSpread.lines_alike depth h
  | .inlineFragment f, h => InlineFragment.lines_alike depth f h
  | .unknown, _ => .error _ _

theorem Selection.linesOfAll_alike (depth : Nat) : (ss : List Selection) →
    Selection.QuotelessAll ss →
      Alike (Together WeavesLine) (Selection.linesOfAll depth ss)
        (Selection.linesOfAll depth (Selection.blankedAll ss)) (Selection.stringsOfAll ss)
  | [], _ => .ok .nil
  | s :: ss, h => by
    rw [Selection.blankedAll, Selection.linesOfAll, Selection.linesOfAll, Selection.stringsOfAll]
    exact (Selection.lines_alike depth s h.1).bind fun _ _ hs =>
      (Selection.linesOfAll_alike depth ss h.2).pure fun _ _ hss => hs.append hss
end

theorem FragmentDefinition.lines_alike (depth : Nat) {f : FragmentDefinition} (h : f.Quoteless) :
    Alike (Together WeavesLine) (f.lines depth) (f.blanked.lines depth) f.strings := by
  refine (signature_alike h).bind fun _ _ hsignature => ?_
  refine (Selection.linesOfAll_alike (depth + 1) _ h.selections).pure fun _ _ hinside => ?_
  exact .cons ⟨rfl, hsignature⟩ (braced_weave hinside)

theorem Operation.lines_alike (depth : Nat) {o : Operation} (h : o.Quoteless) :
    Alike (Together WeavesLine) (o.lines depth) (o.blanked.lines depth) o.strings := by
  refine (signature_alike h).bind fun _ _ hsignature => ?_
  refine (Selection.linesOfAll_alike (depth + 1) _ h.selections).pure fun _ _ hinside => ?_
  exact (hsignature.map fun _ _ _ ht => ⟨rfl, ht⟩).append (braced_weave hinside)

theorem Definition.lines_alike (depth : Nat) {d : Definition} (h : d.Quoteless) :
    Alike (Together WeavesLine) (d.lines depth) (d.blanked.lines depth) d.strings := by
  cases d with
  | fragment f => exact FragmentDefinition.lines_alike depth h
  | operation o => exact Operation.lines_alike depth h
  | unknown => exact .error _ _

/-- The two texts have the same paragraphs, of as many lines. -/
theorem Node.paragraphs_alike {node : Node} (h : node.Quoteless) :
    Alike (Together (Together WeavesLine)) node.paragraphs node.blanked.paragraphs
      node.strings := by
  cases node with
  | document d =>
    have hall := Alike.mapM (f := Definition.lines 0) (g := Definition.lines 0 ∘ Definition.blanked)
      fun x hx => Definition.lines_alike 0 (h x hx)
    rwa [← List.mapM_map] at hall
  | field f => exact (Field.lines_alike 0 f h).pure fun _ _ hlines => .singleton hlines
  | fragmentDefinition f =>
    exact (FragmentDefinition.lines_alike 0 h).pure fun _ _ hlines => .singleton hlines
  | fragmentSpread s =>
    exact (FragmentSpread.lines_alike 0 h).pure fun _ _ hlines => .singleton hlines
  | inlineFragment f =>
    exact (InlineFragment.lines_alike 0 f h).pure fun _ _ hlines => .singleton hlines
  | operation o => exact (Operation.lines_alike 0 h).pure fun _ _ hlines => .singleton hlines

namespace Formatter

variable {f : Formatter}

/-- Indenting by a unit without quotes adds no string. -/
theorem paragraph_weave (hf : Quoteless f.indentUnit) (level : Nat) {as bs : List Line}
    {ss : List String} (h : Together WeavesLine as bs ss) :
    Weaves (f.paragraph level as) (f.paragraph level bs) ss := by
  refine .intercalate (by decide) (h.map fun a b ss hab => ?_)
  rw [line, line, hab.1]
  exact .behind (notMem_indent hf _) hab.2

/-- The two texts differ in the literals only, at every level and with every unit of
indentation. -/
theorem format_alike (hf : Quoteless f.indentUnit) (level : Nat) {node : Node}
    (h : node.Quoteless) :
    Alike Weaves (f.format level node) (f.format level node.blanked) node.strings :=
  (Node.paragraphs_alike h).pure fun _ _ hall =>
    .intercalate (by decide) (hall.map fun _ _ _ => paragraph_weave hf level)

/-- Two trees that differ in the contents of strings only fail with the same error or have texts
that differ between the quotes of literals only, if no quote stands in a name, a type or the indent
unit. Such a text has the strings of its tree as its literals, in order. -/
theorem format_masked {a b : Node} (h : a.blanked = b.blanked) (ha : a.Quoteless)
    (hb : b.Quoteless) (f : Formatter) (hf : Quoteless f.indentUnit) (level : Nat) :
    ((∃ e, f.format level a = .error e ∧ f.format level b = .error e) ∨
      ∃ s t, f.format level a = .ok s ∧ f.format level b = .ok t ∧ Text.mask s = Text.mask t) ∧
    ∀ s, f.format level a = .ok s →
      (Text.literals s).map (Text.readInside Grammar.isRaw) = a.strings.map some := by
  have hfirst := format_alike hf level ha
  have hsecond := format_alike hf level hb
  rw [← h] at hsecond
  generalize f.format level a = r at *
  generalize f.format level b = r' at *
  generalize f.format level a.blanked = plain at *
  constructor
  · cases hfirst with
    | error e =>
      cases hsecond
      exact .inl ⟨e, rfl, rfl⟩
    | ok hs =>
      cases hsecond with
      | ok ht => exact .inr ⟨_, _, rfl, rfl, hs.mask.trans ht.mask.symm⟩
  · rintro s rfl
    cases hfirst with
    | ok hs =>
      have hread : Text.asciiQuotation.Readable Grammar.isRaw :=
        Text.asciiQuotation_readable _ fun _ => Grammar.isRaw_of_ascii
      rw [hs.literals, List.map_map]
      exact List.map_congr_left fun text _ => hread.readInside_chars text

/-- A query with one argument, which is a text. -/
def quoting (text : String) : Node :=
  .document ⟨[.operation
    { kind := .query
      selections := [.field { name := "a", arguments := [("b", .string text)] }] }]⟩

theorem quoting_quoteless (text : String) : (quoting text).Quoteless := by
  have hfield : Field.Quoteless { name := "a", arguments := [("b", .string text)] } :=
    ⟨by decide, nofun, ⟨by decide, trivial, trivial⟩, nofun, trivial⟩
  exact List.forall_mem_singleton.2 ⟨nofun, nofun, nofun, ⟨hfield, trivial⟩⟩

/-- A quote and a brace in the text do not end the argument. -/
theorem format_masked_of_quoting :
    (quoting "\"\x7d").blanked = (quoting "").blanked ∧ (quoting "\"\x7d").Quoteless ∧
      (quoting "").Quoteless ∧ Quoteless (indentUnit {}) ∧
      ∃ s t, format {} 0 (quoting "\"\x7d") = .ok s ∧ format {} 0 (quoting "") = .ok t ∧
        Text.mask s = Text.mask t ∧
        (Text.literals s).map (Text.readInside Grammar.isRaw) = [some "\"\x7d"] := by
  have hunit : Quoteless (indentUnit {}) := by decide
  have hmasked := format_masked (a := quoting "\"\x7d") (b := quoting "") rfl
    (quoting_quoteless _) (quoting_quoteless _) {} hunit 0
  refine ⟨rfl, quoting_quoteless _, quoting_quoteless _, hunit, ?_⟩
  obtain ⟨e, he, -⟩ | ⟨s, t, hs, ht, hm⟩ := hmasked.1
  · cases he
  · exact ⟨s, t, hs, ht, hm, hmasked.2 s hs⟩

end Formatter
end QueryDocument
