import QueryDocument.Proofs.Grammar.Named
import QueryDocument.Proofs.Grammar.Spelling
import QueryDocument.Proofs.Outcome
import QueryDocument.Render.Formatter

/-!
The text of a tree that the grammar can express exists, and the lexer finds in it the tokens of the
tree, whatever the layout.
-/
namespace QueryDocument

open Grammar

namespace Grammar

/-- A text between a token that opens and one that closes. -/
theorem firm_enclosed {left right text : String} {t u : Token} {ts : List Token}
    (hl : Firm left [t]) (hr : Firm right [u]) (ho : Opens right) (h : Spells text ts) :
    Firm (left ++ text ++ right) (t :: ts ++ [u]) := by
  have hopen := hl.append h
  exact Spells.append hopen hr ho

/-- Each punctuator is a token by itself. -/
theorem firm_openBrace : Firm "\x7b" [.openBrace] := firm_punctuator (c := '\x7b') rfl (by decide)
theorem firm_closeBrace : Firm "\x7d" [.closeBrace] := firm_punctuator (c := '\x7d') rfl (by decide)
theorem firm_openParen : Firm "(" [.openParen] := firm_punctuator (c := '(') rfl (by decide)
theorem firm_closeParen : Firm ")" [.closeParen] := firm_punctuator (c := ')') rfl (by decide)
theorem firm_openBracket : Firm "[" [.openBracket] := firm_punctuator (c := '[') rfl (by decide)
theorem firm_closeBracket : Firm "]" [.closeBracket] := firm_punctuator (c := ']') rfl (by decide)
theorem firm_dollar : Firm "$" [.dollar] := firm_punctuator (c := '$') rfl (by decide)
theorem firm_atSign : Firm "@" [.atSign] := firm_punctuator (c := '@') rfl (by decide)
theorem firm_bang : Firm "!" [.bang] := firm_punctuator (c := '!') rfl (by decide)

/-- The blank behind the colon is ignored. -/
theorem firm_colon : Firm ": " [.colon] := by
  have hc : Firm ":" [.colon] := firm_punctuator (c := ':') rfl (by decide)
  exact hc.append firm_blank

theorem firm_equals : Firm "= " [.equals] := by
  have he : Firm "=" [.equals] := firm_punctuator (c := '=') rfl (by decide)
  exact he.append firm_blank

/-- What ends a block, a list or a name cannot be taken for a part of it. -/
theorem opens_closeBrace : Opens "\x7d" := opens_of_head (c := '\x7d') rfl (by decide)
theorem opens_closeParen : Opens ")" := opens_of_head (c := ')') rfl (by decide)
theorem opens_closeBracket : Opens "]" := opens_of_head (c := ']') rfl (by decide)
theorem opens_colon : Opens ": " := opens_of_head (c := ':') rfl (by decide)
theorem opens_openParen : Opens "(" := opens_of_head (c := '(') rfl (by decide)
theorem opens_bang : Opens "!" := opens_of_head (c := '!') rfl (by decide)

theorem isName_ne_empty {name : String} (h : isName name = true) : name.isEmpty = false := by
  cases hn : name.isEmpty with
  | false => rfl
  | true =>
    rw [String.isEmpty_iff.1 hn] at h
    cases h

end Grammar

namespace Value

mutual
/-- By recursion over the value. No part of a literal runs into the next one. -/
theorem render_spells (c : Bool) : ∀ v : Value, v.Named c →
    ∃ text, v.render c = .ok text ∧ Spells text v.tokens
  | .bool b, _ => by
    refine ⟨_, rfl, ?_⟩
    cases b <;> exact spells_name rfl
  | .enum name, h => by
    have hn := isName_ne_empty h.1
    exact ⟨name, by simp [render, hn], spells_name h.1⟩
  | .float x, h => by
    have hf : x.isFinite = true := h
    refine ⟨x.text, by simp [render, hf], spells_number (Binary64.numeral_literal hf) ?_⟩
    rw [Binary64.text, String.toList_ofList, Binary64.chars_eq_numeral_chars hf]
  | .int n, _ => by
    exact ⟨_, rfl, spells_number (Numeral.ofInt_literal _) (Numeral.toList_toString_eq_chars _)⟩
  | .list items, h => by
    obtain ⟨texts, hr, hs⟩ := renderItems_spells c items h
    refine ⟨"[" ++ ", ".intercalate texts ++ "]", by simp [render, hr], ?_⟩
    exact (firm_enclosed firm_openBracket firm_closeBracket opens_closeBracket
      (hs.intercalate firm_comma opens_comma)).spells
  | .null, _ => ⟨"null", rfl, spells_name rfl⟩
  | .object fields, h => by
    obtain ⟨texts, hr, hs⟩ := renderFields_spells c fields h
    refine ⟨"\x7b" ++ ", ".intercalate texts ++ "\x7d", by simp [render, hr], ?_⟩
    exact (firm_enclosed firm_openBrace firm_closeBrace opens_closeBrace
      (hs.intercalate firm_comma opens_comma)).spells
  | .string text, _ => ⟨_, rfl, spells_string text⟩
  | .var name, h => by
    obtain ⟨hc, hn⟩ := h
    have he := isName_ne_empty hn
    exact ⟨"$" ++ name, by simp [render, he, hc], firm_dollar.append (spells_name hn)⟩

theorem renderItems_spells (c : Bool) : ∀ vs : List Value, NamedItems c vs →
    ∃ texts, renderItems c vs = .ok texts ∧ SpellsAll texts (tokensOfItems vs)
  | [], _ => ⟨[], rfl, .nil⟩
  | v :: vs, h => by
    obtain ⟨text, hr, hs⟩ := render_spells c v h.1
    obtain ⟨texts, hrs, hss⟩ := renderItems_spells c vs h.2
    exact ⟨text :: texts, by simp [renderItems, hr, hrs], .cons hs hss⟩

/-- A key is a name, and the colon behind it ends it. -/
theorem renderFields_spells (c : Bool) : ∀ fs : List (String × Value), NamedFields c fs →
    ∃ texts, renderFields c fs = .ok texts ∧ SpellsAll texts (tokensOfFields fs)
  | [], _ => ⟨[], rfl, .nil⟩
  | (k, v) :: fs, h => by
    obtain ⟨hk, hv, hfs⟩ := h
    obtain ⟨text, hr, hs⟩ := render_spells c v hv
    obtain ⟨texts, hrs, hss⟩ := renderFields_spells c fs hfs
    have hkey := Spells.append (spells_name hk) firm_colon opens_colon
    exact ⟨(k ++ ": " ++ text) :: texts, by simp [renderFields, hr, hrs],
      .cons (Firm.append hkey hs) hss⟩
end

end Value

/-- Arguments stand right behind a name. -/
theorem renderArguments_spells {c : Bool} {args : Arguments} (h : Value.NamedFields c args) :
    ∃ text, renderArguments c args = .ok text ∧ ∀ head ts, Spells head ts →
      Spells (head ++ text) (ts ++ argumentTokens args) := by
  cases args with
  | nil =>
    refine ⟨"", rfl, fun head ts hh => ?_⟩
    simpa [argumentTokens] using hh
  | cons a args =>
    obtain ⟨texts, hr, hs⟩ := Value.renderFields_spells c _ h
    refine ⟨"(" ++ ", ".intercalate texts ++ ")", by simp [renderArguments, hr],
      fun head ts hh => ?_⟩
    have hargs := firm_enclosed firm_openParen firm_closeParen opens_closeParen
      (hs.intercalate firm_comma opens_comma)
    have ho : Opens ("(" ++ ", ".intercalate texts ++ ")") := by
      rw [String.append_assoc]
      exact opens_openParen.append _
    exact Spells.append hh hargs.spells ho

/-- The at sign is written once, whether the name brings it along or not. -/
theorem Directive.sigil_append (name : String) :
    (if name.toList.head? = some '@' then "" else "@") ++ name =
      "@" ++ Directive.plainName name := by
  by_cases hh : name.toList.head? = some '@'
  · obtain ⟨cs, hcs⟩ := List.head?_eq_some_iff.1 hh
    have hplain : plainName name = String.ofList cs := by
      unfold plainName
      rw [hcs]
      rfl
    rw [if_pos hh, String.empty_append, hplain]
    apply String.toList_inj.1
    simp [hcs]
  · have hplain : plainName name = name := by
      unfold plainName
      split
      case h_1 cs hcs => exact absurd (by rw [hcs]; rfl) hh
      case h_2 => rfl
    rw [if_neg hh, hplain]

/-- The at sign is a token of its own, whether it was given or not. -/
theorem Directive.render_spells {c : Bool} {d : Directive} (h : d.Named c) :
    ∃ text, d.render c = .ok text ∧ Spells text d.tokens := by
  obtain ⟨args, hr, hs⟩ := renderArguments_spells h.arguments
  refine ⟨_, by simp only [Directive.render, hr, Outcome.ok_bind, Outcome.pure_eq]; rfl, ?_⟩
  rw [Directive.sigil_append]
  exact hs _ _ (Firm.append firm_atSign (spells_name h.name))

theorem mapM_spells {α : Type} {f : α → Rendered String} {g : α → List Token} {xs : List α}
    (h : ∀ x ∈ xs, ∃ text, f x = .ok text ∧ Spells text (g x)) :
    ∃ texts, xs.mapM f = .ok texts ∧ SpellsAll texts (xs.flatMap g) := by
  induction xs with
  | nil => exact ⟨[], rfl, .nil⟩
  | cons x xs ih =>
    obtain ⟨hx, hxs⟩ := List.forall_mem_cons.1 h
    obtain ⟨text, hr, hs⟩ := hx
    obtain ⟨texts, hrs, hss⟩ := ih hxs
    refine ⟨text :: texts, ?_, .cons hs hss⟩
    rw [List.mapM_cons, hr, hrs]
    rfl

/-- Directives stand between blanks, and none are no text. -/
theorem renderDirectives_spells {c : Bool} {ds : List Directive} (h : ∀ d ∈ ds, d.Named c) :
    ∃ text, renderDirectives c ds = .ok text ∧ SpellsAll text.toList (directiveTokens ds) ∧
      (text = none ↔ ds = []) := by
  cases ds with
  | nil => exact ⟨none, rfl, .nil, by simp⟩
  | cons d ds =>
    obtain ⟨texts, hr, hs⟩ := mapM_spells fun d hd => Directive.render_spells (h d hd)
    refine ⟨some (" ".intercalate texts), ?_, ?_, by simp⟩
    · simp only [renderDirectives, List.isEmpty_cons, Bool.false_eq_true, if_false, hr,
        Outcome.ok_bind, Outcome.pure_eq]
    · exact .singleton (hs.intercalate firm_blank opens_blank)

/-- A type is written without blanks, which it does not need. -/
theorem Grammar.TypeReference.text_spells : ∀ t : TypeReference, t.Named → Spells t.text t.tokens
  | .named name required, h => by
    cases required with
    | false => simpa [text, tokens, bangTokens] using spells_name h
    | true =>
      exact Spells.append (spells_name h) firm_bang.spells opens_bang
  | .list item required, h => by
    have hitem := firm_enclosed firm_openBracket firm_closeBracket opens_closeBracket
      (text_spells item h)
    cases required with
    | false => simpa [text, tokens, bangTokens] using hitem.spells
    | true =>
      have hbang := Firm.append hitem firm_bang.spells
      simpa [text, tokens, bangTokens] using hbang

/-- Where all of a text is taken apart, the lexer finds its tokens. -/
theorem Grammar.scan_of_spells {text : String} {ts : List Token} (h : Spells text ts) :
    scan text.toList = some ts := by
  have htakes := h [] ⟨rfl, by simp⟩
  rw [List.append_nil] at htakes
  exact htakes.scanUpTo (Nat.le_refl _)

theorem Grammar.typeTokens_text {t : TypeReference} (h : t.Named) :
    typeTokens t.text = t.tokens := by
  rw [typeTokens, scan_of_spells (t.text_spells h)]
  rfl

namespace VariableDefinition

/-- The equals sign stands before a default only. -/
theorem renderDefault_spells {v : Option Value} (h : ∀ x, v = some x → x.Named true) :
    ∃ texts, renderDefault v = .ok texts ∧ SpellsAll texts (defaultTokens v) := by
  cases v with
  | none => exact ⟨[], rfl, .nil⟩
  | some v =>
    obtain ⟨text, hr, hs⟩ := v.render_spells true (h v rfl)
    refine ⟨["= " ++ text], by simp [renderDefault, hr], .singleton ?_⟩
    exact Firm.append firm_equals hs

/-- A variable is spelled with its dollar sign, which is not part of its name. -/
theorem render_spells {name : String} {d : VariableDefinition} (hn : isName name = true)
    (h : d.Named) : ∃ text, d.render name = .ok text ∧ Spells text (d.tokens name) := by
  obtain ⟨t, ht, htype⟩ := h.type
  obtain ⟨dflt, hdr, hds⟩ := renderDefault_spells h.default
  obtain ⟨dirs, hxr, hxs, -⟩ := renderDirectives_spells h.directives
  refine ⟨_, by simp only [render, hdr, hxr, Outcome.ok_bind, Outcome.pure_eq]; rfl, ?_⟩
  have hcolon : Firm ":" [.colon] := firm_punctuator (c := ':') rfl (by decide)
  have hname : Firm ("$" ++ name ++ ":") ([.dollar] ++ [.name name] ++ [.colon]) :=
    Spells.append (Firm.append firm_dollar (spells_name hn)) hcolon
      (opens_of_head (c := ':') rfl (by decide))
  have htypes : Spells d.type (typeTokens d.type) := by
    rw [htype, typeTokens_text ht]
    exact t.text_spells ht
  have hall := SpellsAll.cons hname.spells (.cons htypes (hds.append hxs))
  have hline := hall.intercalate firm_blank opens_blank
  simpa [tokens, List.append_assoc] using hline

end VariableDefinition

/-- Lines that spell tokens, one after the other. -/
def Line.SpellAll (ls : List Line) (ts : List Token) : Prop := SpellsAll (ls.map Line.text) ts

theorem FragmentSpread.lines_spell {s : FragmentSpread} (h : s.Named) (depth : Nat) :
    ∃ ls, s.lines depth = .ok ls ∧ Line.SpellAll ls s.tokens := by
  obtain ⟨dirs, hr, hs, -⟩ := renderDirectives_spells h.directives
  refine ⟨_, by simp only [lines, signature, hr, Outcome.ok_bind, Outcome.pure_eq]; rfl, ?_⟩
  have hname := Firm.append firm_spread (spells_name h.name.1)
  exact .singleton ((SpellsAll.cons hname hs).intercalate firm_blank opens_blank)

/-- A label and a name are told apart by the colon between them. -/
theorem Field.signature_spells {f : Field} (hn : isName f.name = true)
    (hl : ∀ l, f.label = some l → isName l = true) (ha : Value.NamedFields false f.arguments)
    (hd : ∀ d ∈ f.directives, d.Named false) :
    ∃ text, f.signature = .ok text ∧ Spells text (labelTokens f.label ++ [.name f.name] ++
      argumentTokens f.arguments ++ directiveTokens f.directives) := by
  obtain ⟨args, har, has⟩ := renderArguments_spells ha
  obtain ⟨dirs, hdr, hds, -⟩ := renderDirectives_spells hd
  obtain ⟨label, hlabel⟩ : ∃ label, f.label = label := ⟨_, rfl⟩
  have hfield := spells_name hn
  refine ⟨_, by simp only [signature, har, hdr, Outcome.ok_bind, Outcome.pure_eq]; rfl, ?_⟩
  refine (SpellsAll.cons (has _ _ ?_) hds).intercalate firm_blank opens_blank
  rw [hlabel] at hl ⊢
  cases label with
  | none =>
    simpa [labelTokens] using hfield
  | some l =>
    have hcolon := Spells.append (spells_name (hl l rfl)) firm_colon opens_colon
    exact Firm.append hcolon hfield

/-- An inline fragment begins with three dots, and goes on with `on` where it has a type. -/
theorem InlineFragment.signature_spells {f : InlineFragment}
    (ht : ∀ t, f.typeCondition = some t → isName t = true)
    (hd : ∀ d ∈ f.directives, d.Named false) :
    ∃ text, f.signature = .ok text ∧
      Spells text
        ([.spread] ++ (conditionTokens f.typeCondition ++ directiveTokens f.directives)) := by
  obtain ⟨dirs, hdr, hds, -⟩ := renderDirectives_spells hd
  refine ⟨_, by simp only [signature, hdr, Outcome.ok_bind, Outcome.pure_eq]; rfl, ?_⟩
  refine (SpellsAll.cons firm_spread.spells (.append ?_ hds)).intercalate firm_blank opens_blank
  cases hc : f.typeCondition with
  | none => exact .nil
  | some t =>
    have hon : Spells "on" [.name "on"] := spells_name rfl
    have htype := Firm.append (Spells.append hon firm_blank opens_blank) (spells_name (ht t hc))
    exact .singleton htype

/-- The lines between braces are spelled at any depth. -/
theorem braced_spell {ls : List Line} {ts : List Token} (h : Line.SpellAll ls ts) (depth : Nat) :
    Line.SpellAll (braced depth ls) (.openBrace :: ts ++ [.closeBrace]) := by
  have hclose : SpellsAll ["\x7d"] [.closeBrace] := .singleton firm_closeBrace.spells
  have hall := SpellsAll.cons firm_openBrace.spells (h.append hclose)
  simpa [braced, Line.SpellAll] using hall

mutual
/-- A field has braces exactly if it has selections. -/
theorem Field.lines_spell : ∀ (f : Field), f.Named → ∀ depth,
    ∃ ls, f.lines depth = .ok ls ∧ Line.SpellAll ls f.tokens
  | ⟨name, label, args, ds, ss⟩, h, depth => by
    obtain ⟨hn, hl, ha, hd, hss⟩ := h
    obtain ⟨text, hr, hs⟩ := Field.signature_spells (f := ⟨name, label, args, ds, ss⟩) hn hl ha hd
    obtain ⟨ls, hrs, hlines⟩ := Selection.linesOfAll_spell ss hss (depth + 1)
    refine ⟨_, by simp only [Field.lines, hr, hrs, Outcome.ok_bind, Outcome.pure_eq]; rfl, ?_⟩
    have hinside : Line.SpellAll (if ss.isEmpty then [] else braced depth ls)
        (Selection.optionalTokens ss) := by
      cases ss with
      | nil => exact .nil
      | cons s ss => exact braced_spell hlines depth
    have hall := SpellsAll.cons hs hinside
    simpa [Line.SpellAll, Field.tokens, List.append_assoc] using hall

theorem InlineFragment.lines_spell : ∀ (f : InlineFragment), f.Named → ∀ depth,
    ∃ ls, f.lines depth = .ok ls ∧ Line.SpellAll ls f.tokens
  | ⟨type, ds, ss⟩, h, depth => by
    obtain ⟨ht, hd, -, hss⟩ := h
    obtain ⟨text, hr, hs⟩ := InlineFragment.signature_spells (f := ⟨type, ds, ss⟩) ht hd
    obtain ⟨ls, hrs, hlines⟩ := Selection.linesOfAll_spell ss hss (depth + 1)
    refine ⟨_, by simp only [InlineFragment.lines, hr, hrs, Outcome.ok_bind, Outcome.pure_eq]; rfl,
      ?_⟩
    have hall := SpellsAll.cons hs (braced_spell hlines depth)
    simpa [Line.SpellAll, InlineFragment.tokens, List.append_assoc] using hall

theorem Selection.lines_spell : ∀ (s : Selection), s.Named → ∀ depth,
    ∃ ls, s.lines depth = .ok ls ∧ Line.SpellAll ls s.tokens
  | .field f, h, depth => f.lines_spell h depth
  | .spread s, h, depth => FragmentSpread.lines_spell (s := s) h depth
  | .inlineFragment f, h, depth => f.lines_spell h depth
  | .unknown, h, _ => h.elim

theorem Selection.linesOfAll_spell : ∀ (ss : List Selection), Selection.NamedAll ss → ∀ depth,
    ∃ ls, Selection.linesOfAll depth ss = .ok ls ∧ Line.SpellAll ls (Selection.tokensOfAll ss)
  | [], _, _ => ⟨[], rfl, .nil⟩
  | s :: ss, h, depth => by
    obtain ⟨ls, hr, hs⟩ := Selection.lines_spell s h.1 depth
    obtain ⟨more, hrs, hss⟩ := Selection.linesOfAll_spell ss h.2 depth
    refine ⟨ls ++ more, by simp only [Selection.linesOfAll, hr, hrs, Outcome.ok_bind]; rfl, ?_⟩
    have hall := SpellsAll.append hs hss
    rwa [← List.map_append] at hall
end

/-- Variables are read as such whatever follows, and run into nothing before them. -/
theorem renderVariables_spells {ds : Keyed VariableDefinition}
    (h : ∀ e ∈ ds, isName e.1 = true ∧ e.2.Named) :
    ∃ text, renderVariables ds = .ok text ∧ (text = none ↔ ds = []) ∧
      ∀ t, text = some t → Firm t (variableTokens ds) ∧ Opens t := by
  cases ds with
  | nil => exact ⟨none, rfl, by simp, by simp⟩
  | cons d ds =>
    obtain ⟨texts, hr, hs⟩ :=
      mapM_spells fun e he => VariableDefinition.render_spells (h e he).1 (h e he).2
    refine ⟨some ("(" ++ ", ".intercalate texts ++ ")"), ?_, by simp, fun t ht => ?_⟩
    · simp only [renderVariables, List.isEmpty_cons, Bool.false_eq_true, if_false, hr,
        Outcome.ok_bind, Outcome.pure_eq]
    · obtain rfl := Option.some.inj ht
      refine ⟨firm_enclosed firm_openParen firm_closeParen opens_closeParen
        (hs.intercalate firm_comma opens_comma), ?_⟩
      rw [String.append_assoc]
      exact opens_openParen.append _

namespace Operation

/-- The variables follow a name without a blank, and the keyword with one. -/
theorem titleParts_spell {name declared : Option String} {ts : List Token}
    (hn : ∀ n, name = some n → isName n = true) (hd : declared = none → ts = [])
    (ht : ∀ t, declared = some t → Firm t ts ∧ Opens t) :
    SpellsAll (titleParts name declared) (name.toList.map .name ++ ts) := by
  cases name with
  | none =>
    cases declared with
    | none =>
      rw [hd rfl]
      exact .nil
    | some t =>
      have hfirm := (ht t rfl).1.spells
      simpa [titleParts] using SpellsAll.singleton hfirm
  | some n =>
    have hname := spells_name (hn n rfl)
    cases declared with
    | none =>
      rw [hd rfl]
      simpa [titleParts] using SpellsAll.singleton hname
    | some t =>
      obtain ⟨hfirm, ho⟩ := ht t rfl
      exact .singleton (Spells.append hname hfirm.spells ho)

/-- A keyword is a name to the lexer. -/
theorem isName_keyword (kind : OperationKind) : isName kind.keyword = true := by
  cases kind <;> rfl

/-- The shorthand query has no signature and no tokens for one. -/
theorem signature_spells {o : Operation} (h : o.Named) :
    ∃ text, o.signature = .ok text ∧ SpellsAll text.toList o.headTokens := by
  obtain ⟨vars, hvr, hv, hvs⟩ := renderVariables_spells h.declared
  obtain ⟨dirs, hdr, hds, hd⟩ := renderDirectives_spells h.directives
  have hbare : (o.kind = .query ∧ o.name.isNone ∧ vars.isNone ∧ dirs.isNone) ↔
      (o.kind = .query ∧ o.name = none ∧ o.declared = [] ∧ o.directives = []) := by
    simp only [Option.isNone_iff_eq_none, hv, hd]
  unfold signature headTokens
  simp only [hvr, hdr, Outcome.ok_bind, hbare]
  split
  · exact ⟨none, rfl, .nil⟩
  · refine ⟨_, rfl, .singleton ?_⟩
    have hvars : vars = none → variableTokens o.declared = [] := by
      intro hnone
      rw [hv.1 hnone]
      rfl
    have htitle := titleParts_spell h.name hvars hvs
    have hall := SpellsAll.cons (spells_name (isName_keyword o.kind)) (htitle.append hds)
    exact hall.intercalate firm_blank opens_blank

theorem lines_spell {o : Operation} (h : o.Named) (depth : Nat) :
    ∃ ls, o.lines depth = .ok ls ∧ Line.SpellAll ls o.tokens := by
  obtain ⟨text, hr, hs⟩ := signature_spells h
  obtain ⟨ls, hrs, hlines⟩ := Selection.linesOfAll_spell _ h.selections.2 (depth + 1)
  refine ⟨_, by simp only [lines, hr, hrs, Outcome.ok_bind, Outcome.pure_eq]; rfl, ?_⟩
  have hall := SpellsAll.append hs (braced_spell hlines depth)
  unfold Line.SpellAll tokens
  cases text with
  | none => simpa using hall
  | some text => simpa using hall

end Operation

theorem FragmentDefinition.lines_spell {f : FragmentDefinition} (h : f.Named) (depth : Nat) :
    ∃ ls, f.lines depth = .ok ls ∧ Line.SpellAll ls f.tokens := by
  obtain ⟨dirs, hdr, hds, -⟩ := renderDirectives_spells h.directives
  obtain ⟨ls, hrs, hlines⟩ := Selection.linesOfAll_spell _ h.selections.2 (depth + 1)
  refine ⟨_, by simp only [lines, signature, hdr, hrs, Outcome.ok_bind, Outcome.pure_eq]; rfl, ?_⟩
  have hword : Spells "fragment" [.name "fragment"] := spells_name rfl
  have hon : Spells "on" [.name "on"] := spells_name rfl
  have hname := Firm.append (Spells.append hword firm_blank opens_blank) (spells_name h.name.1)
  have htype := Firm.append (Spells.append hon firm_blank opens_blank)
    (spells_name h.typeCondition)
  have hhead := (SpellsAll.cons hname (.cons htype hds)).intercalate firm_blank opens_blank
  have hall := SpellsAll.cons hhead (braced_spell hlines depth)
  simpa [Line.SpellAll, tokens, List.append_assoc] using hall

/-- Every definition that the grammar can express has lines. -/
theorem Definition.lines_spell {d : Definition} (h : d.Named) :
    ∃ ls, d.lines 0 = .ok ls ∧ Line.SpellAll ls d.tokens := by
  cases d with
  | fragment f => exact FragmentDefinition.lines_spell (f := f) h 0
  | operation o => exact Operation.lines_spell (o := o) h 0
  | unknown => exact h.elim

namespace Formatter

/-- Indent units that are nothing but white space. -/
def BlankIndent (f : Formatter) : Prop := ∀ c ∈ f.indentUnit.toList, c = ' ' ∨ c = '\t'

/-- Indentation by blanks is ignored. -/
theorem firm_indent {f : Formatter} (h : f.BlankIndent) (depth : Nat) :
    Firm (f.indent depth) [] := by
  refine firm_of_ignored fun c hc => ?_
  rw [indent, String.toList_join] at hc
  obtain ⟨unit, hu, hc⟩ := List.mem_flatMap.1 hc
  rw [List.eq_of_mem_replicate hu] at hc
  rcases h c hc with rfl | rfl
  · rfl
  · rfl

/-- Line breaks are ignored, and end any token. -/
theorem paragraph_spells {f : Formatter} (h : f.BlankIndent) (level : Nat) {ls : List Line}
    {ts : List Token} (hs : Line.SpellAll ls ts) : Spells (f.paragraph level ls) ts := by
  refine SpellsAll.intercalate firm_line opens_line ?_
  induction ls generalizing ts with
  | nil => exact hs
  | cons l ls ih =>
    cases hs with
    | cons hl hls => exact .cons (Firm.append (firm_indent h _) hl) (ih hls)

theorem paragraphs_spell {f : Formatter} (hf : f.BlankIndent) (level : Nat)
    {xs : List Definition} (h : ∀ x ∈ xs, x.Named) :
    ∃ groups, xs.mapM (Definition.lines 0) = .ok groups ∧
      SpellsAll (groups.map (f.paragraph level)) (xs.flatMap Definition.tokens) := by
  induction xs with
  | nil => exact ⟨[], rfl, .nil⟩
  | cons x xs ih =>
    obtain ⟨hx, hxs⟩ := List.forall_mem_cons.1 h
    obtain ⟨ls, hr, hs⟩ := Definition.lines_spell hx
    obtain ⟨groups, hrs, hss⟩ := ih hxs
    refine ⟨ls :: groups, ?_, .cons (paragraph_spells hf level hs) hss⟩
    rw [List.mapM_cons, hr, hrs]
    rfl

/-- A document that the grammar can express has a text, which the lexer takes into its tokens. -/
theorem format_spells {f : Formatter} (hf : f.BlankIndent) (level : Nat) {d : Document}
    (h : ∀ x ∈ d.definitions, x.Named) :
    ∃ text, f.format level (.document d) = .ok text ∧ scan text.toList = some d.tokens := by
  obtain ⟨groups, hr, hs⟩ := paragraphs_spell hf level h
  have hgap : Firm ("\n" ++ "\n") [] := Firm.append firm_line firm_line
  have hopens : Opens ("\n" ++ "\n") := opens_line.append "\n"
  refine ⟨"\n\n".intercalate (groups.map (f.paragraph level)), ?_, ?_⟩
  · simp only [format, Node.paragraphs, hr, Outcome.ok_bind, Outcome.pure_eq]
  · exact scan_of_spells (hs.intercalate hgap hopens)

end Formatter

end QueryDocument
