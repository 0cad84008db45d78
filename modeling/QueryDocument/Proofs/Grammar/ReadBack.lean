import QueryDocument.Proofs.Grammar.Parts

/-!
Reading the tokens of a document gives back the document, and so a rendered document is read back
from its text, whatever the layout: nothing is lost but the at sign that a directive's name may
bring along.
-/
namespace QueryDocument

open Grammar

theorem readFieldName_tokens (label : Option String) (name : String) {rest : List Token}
    (h : Clear [.colon] rest) : ∃ first, labelTokens label ++ .name name :: rest =
      .name first :: (if label = none then rest else .colon :: .name name :: rest) ∧
      readFieldName first (if label = none then rest else .colon :: .name name :: rest) =
        some ((label, name), rest) := by
  cases label with
  | none =>
    refine ⟨name, rfl, ?_⟩
    rw [if_pos rfl]
    unfold readFieldName
    split
    · exact absurd rfl (h.ne (by simp) _)
    · exact absurd rfl (h.ne (by simp) _)
    · rfl
  | some label => exact ⟨label, rfl, rfl⟩

/-- A selection begins with a name or with three dots. -/
theorem Selection.tokens_eq_cons {s : Selection} (h : s.Named) :
    ∃ t ts, s.tokens = t :: ts ∧ (t = .spread ∨ ∃ n, t = .name n) := by
  cases s with
  | field f =>
    obtain ⟨name, label, args, ds, ss⟩ := f
    cases label with
    | none => exact ⟨_, _, rfl, .inr ⟨_, rfl⟩⟩
    | some label => exact ⟨_, _, rfl, .inr ⟨_, rfl⟩⟩
  | spread s => exact ⟨_, _, rfl, .inl rfl⟩
  | inlineFragment f =>
    obtain ⟨type, ds, ss⟩ := f
    exact ⟨_, _, rfl, .inl rfl⟩
  | unknown => exact h.elim

theorem Selection.tokens_length_pos {s : Selection} (h : s.Named) : 0 < s.tokens.length := by
  obtain ⟨t, ts, ht, -⟩ := tokens_eq_cons h
  rw [ht]
  exact Nat.succ_pos _

/-- What can follow a selection does not go on with it. -/
theorem Selection.clear_tokensOfAll {ss : List Selection} (h : Selection.NamedAll ss)
    (rest : List Token) : Clear [.colon, .openParen, .atSign, .openBrace]
      (Selection.tokensOfAll ss ++ .closeBrace :: rest) := by
  cases ss with
  | nil => exact clear_cons (by simp) _
  | cons s ss =>
    obtain ⟨t, ts, ht, hh⟩ := tokens_eq_cons h.1
    rw [Selection.tokensOfAll, ht]
    refine clear_cons ?_ _
    rcases hh with rfl | ⟨n, rfl⟩
    · simp
    · simp

theorem readMoreSelections_cons (fuel : Nat) {t : Token} (h : t ≠ .closeBrace) (ts : List Token) :
    readMoreSelections (fuel + 1) (t :: ts) = (do
      let (s, ts) ← readSelection fuel (t :: ts)
      let (ss, ts) ← readMoreSelections fuel ts
      pure (s :: ss, ts)) := by
  rw [readMoreSelections]
  intro _ he
  exact h (List.cons.inj he).1

/-- Only the name of a fragment can follow the three dots, unless it is `on`. -/
theorem readSpreadHead_fragment {name : String} (h : name ≠ "on") (ts : List Token) :
    readSpreadHead (.name name :: ts) = some (.fragment name, ts) := by
  simp [readSpreadHead, h]

/-- A fragment in place has its type behind `on`, or no type and no name. -/
theorem readSpreadHead_condition (type : Option String) {rest : List Token}
    (h : ∀ n more, rest ≠ .name n :: more) :
    readSpreadHead (conditionTokens type ++ rest) = some (.inPlace type, rest) := by
  cases type with
  | some type => simp [conditionTokens, readSpreadHead]
  | none =>
    simp only [conditionTokens, List.nil_append]
    unfold readSpreadHead
    split
    · exact absurd rfl (h _ _)
    · rfl

/-- Directives and the brace behind them are no name. -/
theorem directiveTokens_ne_name (ds : List Directive) (rest : List Token) :
    ∀ n more, directiveTokens ds ++ .openBrace :: rest ≠ .name n :: more := by
  intro n more he
  cases ds with
  | nil => cases he
  | cons d ds => cases he

theorem Selection.optionalTokens_of_ne_nil {ss : List Selection} (h : ss ≠ []) :
    Selection.optionalTokens ss = .openBrace :: Selection.tokensOfAll ss ++ [.closeBrace] := by
  cases ss with
  | nil => exact absurd rfl h
  | cons s ss => rfl

theorem readSelections_none (fuel : Nat) {rest : List Token} (h : Clear [.openBrace] rest) :
    readSelections false fuel rest = some ([], rest) := by
  unfold readSelections
  split
  · exact absurd rfl (h.ne (by simp) _)
  · exact absurd rfl (h.ne (by simp) _)
  · rfl

mutual
/-- By recursion over the tree. A field goes on as long as what follows is a part that fields
have. -/
theorem Field.read_tokens : ∀ (f : Field), f.Named → ∀ fuel rest, f.tokens.length ≤ fuel →
    Clear [.colon, .openParen, .atSign, .openBrace] rest →
    readSelection fuel (f.tokens ++ rest) = some (.field f.withoutSigils, rest)
  | ⟨name, label, args, ds, ss⟩, h, 0, rest, hf, _ => by
    simp [Field.tokens] at hf
  | ⟨name, label, args, ds, ss⟩, h, fuel + 1, rest, hf, hr => by
    obtain ⟨-, -, ha, hd, hss⟩ := h
    simp only [Field.tokens, List.length_cons, List.length_append] at hf
    have hs : readSelections false fuel (Selection.optionalTokens ss ++ rest) =
        some (Selection.allWithoutSigils ss, rest) := by
      by_cases hn : ss = []
      · subst hn
        exact readSelections_none fuel (hr.mono (by simp))
      · have hlen := congrArg List.length (Selection.optionalTokens_of_ne_nil hn)
        simp only [List.length_cons, List.length_append, List.length_nil] at hlen
        have hs := Selection.read_tokensOfAll ss hss hn false fuel rest (by omega)
        rw [Selection.optionalTokens_of_ne_nil hn]
        simpa using hs
    -- From the last part to the first: each part must be clear of what would go on with the one
    -- before it, whether the parts between are there or not.
    have hopen : Clear [.colon, .openParen, .atSign] (Selection.optionalTokens ss ++ rest) := by
      cases ss with
      | nil => exact hr.mono (by simp)
      | cons s ss => exact clear_cons (by simp) _
    have hds := readDirectives_tokens hd fuel _ (by omega) (hopen.mono (by simp))
    have hdirs : Clear [.colon, .openParen]
        (directiveTokens ds ++ (Selection.optionalTokens ss ++ rest)) := by
      cases ds with
      | nil => exact hopen.mono (by simp)
      | cons d ds => exact clear_cons (by simp) _
    have has := readArguments_tokens ha fuel _ (by omega) (hdirs.mono (by simp))
    have hargs : Clear [.colon] (argumentTokens args ++
        (directiveTokens ds ++ (Selection.optionalTokens ss ++ rest))) := by
      cases args with
      | nil => exact hdirs.mono (by simp)
      | cons a args => exact clear_cons (by simp) _
    obtain ⟨first, htokens, hname⟩ := readFieldName_tokens label name hargs
    simp only [Field.tokens, List.append_assoc, List.cons_append]
    rw [htokens, readSelection, hname]
    simp [has, hds, hs, Field.withoutSigils]

/-- The braces end an inline fragment, so anything may follow it. -/
theorem InlineFragment.read_tokens : ∀ (f : InlineFragment), f.Named → ∀ fuel rest,
    f.tokens.length ≤ fuel →
    readSelection fuel (f.tokens ++ rest) = some (.inlineFragment f.withoutSigils, rest)
  | ⟨type, ds, ss⟩, h, 0, rest, hf => by
    simp [InlineFragment.tokens] at hf
  | ⟨type, ds, ss⟩, h, fuel + 1, rest, hf => by
    obtain ⟨-, hd, hn, hss⟩ := h
    simp only [InlineFragment.tokens, List.length_cons, List.length_append] at hf
    have hs := Selection.read_tokensOfAll ss hss hn true fuel rest (by omega)
    have hds := readDirectives_tokens hd fuel
      (.openBrace :: (Selection.tokensOfAll ss ++ .closeBrace :: rest)) (by omega)
      (clear_cons (by simp) _)
    have hc := readSpreadHead_condition type (directiveTokens_ne_name ds
      (Selection.tokensOfAll ss ++ .closeBrace :: rest))
    simp only [InlineFragment.tokens, List.cons_append, List.append_assoc, List.nil_append,
      readSelection, hc]
    simp [hds, hs, InlineFragment.withoutSigils]

/-- A spread may go on with its directives only, but is asked the same as a field. -/
theorem Selection.read_tokens : ∀ (s : Selection), s.Named → ∀ fuel rest,
    s.tokens.length ≤ fuel → Clear [.colon, .openParen, .atSign, .openBrace] rest →
    readSelection fuel (s.tokens ++ rest) = some (s.withoutSigils, rest)
  | .field f, h, fuel, rest, hf, hr => f.read_tokens h fuel rest hf hr
  | .spread s, h, 0, rest, hf, _ => by
    simp [Selection.tokens, FragmentSpread.tokens] at hf
  | .spread s, h, fuel + 1, rest, hf, hr => by
    have hs : s.Named := h
    simp only [Selection.tokens, FragmentSpread.tokens, List.length_cons] at hf
    have hd := readDirectives_tokens hs.directives fuel rest (by omega) (hr.mono (by simp))
    have hh := readSpreadHead_fragment hs.name.2 (directiveTokens s.directives ++ rest)
    simp only [Selection.tokens, FragmentSpread.tokens, List.cons_append, readSelection, hh]
    simp [hd, Selection.withoutSigils, FragmentSpread.withoutSigils]
  | .inlineFragment f, h, fuel, rest, hf, _ => f.read_tokens h fuel rest hf
  | .unknown, h, _, _, _, _ => h.elim

/-- Selections in their braces. -/
theorem Selection.read_tokensOfAll : ∀ (ss : List Selection), Selection.NamedAll ss → ss ≠ [] →
    ∀ required fuel rest, (Selection.tokensOfAll ss).length + 2 ≤ fuel →
    readSelections required fuel (.openBrace :: (Selection.tokensOfAll ss ++ .closeBrace :: rest)) =
      some (Selection.allWithoutSigils ss, rest)
  | [], _, hn, _, _, _, _ => absurd rfl hn
  | s :: ss, _, _, _, 0, _, hf => by
    simp at hf
  | s :: ss, h, _, required, fuel + 1, rest, hf => by
    have hpos := Selection.tokens_length_pos h.1
    simp only [Selection.tokensOfAll, List.length_append] at hf
    have hs := Selection.read_tokens s h.1 fuel (Selection.tokensOfAll ss ++ .closeBrace :: rest)
      (by omega) (Selection.clear_tokensOfAll h.2 rest)
    have hss := Selection.readMore_tokensOfAll ss h.2 fuel rest (by omega)
    rw [Selection.tokensOfAll, List.append_assoc, readSelections, hs]
    simp [hss, Selection.allWithoutSigils]

theorem Selection.readMore_tokensOfAll : ∀ (ss : List Selection), Selection.NamedAll ss →
    ∀ fuel rest, (Selection.tokensOfAll ss).length < fuel →
    readMoreSelections fuel (Selection.tokensOfAll ss ++ .closeBrace :: rest) =
      some (Selection.allWithoutSigils ss, rest)
  | [], _, fuel, rest, _ => by
    cases fuel <;> simp [Selection.tokensOfAll, readMoreSelections, Selection.allWithoutSigils]
  | s :: ss, h, 0, rest, hf => by
    simp at hf
  | s :: ss, h, fuel + 1, rest, hf => by
    have hpos := Selection.tokens_length_pos h.1
    simp only [Selection.tokensOfAll, List.length_append] at hf
    have hs := Selection.read_tokens s h.1 fuel (Selection.tokensOfAll ss ++ .closeBrace :: rest)
      (by omega) (Selection.clear_tokensOfAll h.2 rest)
    have hss := Selection.readMore_tokensOfAll ss h.2 fuel rest (by omega)
    obtain ⟨t, ts, ht, hh⟩ := Selection.tokens_eq_cons h.1
    have hne : t ≠ .closeBrace := by
      rcases hh with rfl | ⟨n, rfl⟩
      · simp
      · simp
    rw [Selection.tokensOfAll, List.append_assoc]
    rw [ht, List.cons_append] at hs ⊢
    rw [readMoreSelections_cons fuel hne, hs]
    simp [hss, Selection.allWithoutSigils]
end

namespace Operation

theorem operationKind?_keyword (kind : OperationKind) :
    operationKind? kind.keyword = some kind := by
  cases kind <;> rfl

theorem readOperationName_tokens (name : Option String) {rest : List Token}
    (h : ∀ n more, rest ≠ .name n :: more) :
    readOperationName (name.toList.map .name ++ rest) = (name, rest) := by
  cases name with
  | some name => rfl
  | none =>
    simp only [Option.toList_none, List.map_nil, List.nil_append]
    unfold readOperationName
    split
    · exact absurd rfl (h _ _)
    · rfl

theorem variableTokens_ne_name (vs : Keyed VariableDefinition) (ds : List Directive)
    (rest : List Token) : ∀ n more,
      variableTokens vs ++ (directiveTokens ds ++ .openBrace :: rest) ≠ .name n :: more := by
  cases vs with
  | nil => exact directiveTokens_ne_name ds rest
  | cons v vs =>
    intro n more he
    cases he

/-- The shorthand query is told by its brace, and any other operation by its keyword. -/
theorem read_tokens {o : Operation} (h : o.Named) (fuel : Nat) (rest : List Token)
    (hf : o.tokens.length ≤ fuel) :
    readDefinition fuel (o.tokens ++ rest) = some (.operation o.withoutSigils, rest) := by
  obtain ⟨kind, name, declared, ds, ss⟩ := o
  obtain ⟨hn, hss⟩ := h.selections
  simp only [tokens, List.length_append, List.length_cons] at hf
  have hs := Selection.read_tokensOfAll ss hss hn true fuel rest (by simp at hf; omega)
  unfold tokens
  unfold headTokens at hf ⊢
  split
  -- The shorthand begins with its brace, and nothing of it is told before.
  case isTrue hbare =>
    obtain ⟨rfl, rfl, rfl, rfl⟩ := hbare
    simp only [List.nil_append, List.cons_append, List.append_assoc, readDefinition]
    simp [hs, withoutSigils]
  case isFalse hfull =>
    rw [if_neg hfull] at hf
    simp only [List.length_append, List.length_cons] at hf
    have hds := readDirectives_tokens h.directives fuel
      (.openBrace :: (Selection.tokensOfAll ss ++ .closeBrace :: rest)) (by simp; omega)
      (clear_cons (by simp) _)
    have hopen : Clear [.openParen]
        (directiveTokens ds ++
          .openBrace :: (Selection.tokensOfAll ss ++ .closeBrace :: rest)) := by
      cases ds with
      | nil => exact clear_cons (by simp) _
      | cons d ds => exact clear_cons (by simp) _
    have hvs := readVariables_tokens (fun e he => (h.declared e he).2) fuel _ (by simp; omega) hopen
    have hname := readOperationName_tokens name (variableTokens_ne_name declared ds
      (Selection.tokensOfAll ss ++ .closeBrace :: rest))
    have hword : kind.keyword ≠ "fragment" := by
      cases kind <;> decide
    simp only [List.cons_append, List.append_assoc, List.nil_append, readDefinition, if_neg hword,
      operationKind?_keyword]
    simp only [Option.bind_eq_bind, Option.bind_some, readOperation, hname, hvs, hds, hs]
    rfl

end Operation

theorem FragmentDefinition.read_tokens {f : FragmentDefinition} (h : f.Named) (fuel : Nat)
    (rest : List Token) (hf : f.tokens.length ≤ fuel) :
    readDefinition fuel (f.tokens ++ rest) = some (.fragment f.withoutSigils, rest) := by
  obtain ⟨hn, hss⟩ := h.selections
  simp only [tokens, List.length_cons, List.length_append] at hf
  have hs := Selection.read_tokensOfAll _ hss hn true fuel rest (by omega)
  have hds := readDirectives_tokens h.directives fuel
    (.openBrace :: (Selection.tokensOfAll f.selections ++ .closeBrace :: rest)) (by omega)
    (clear_cons (by simp) _)
  simp only [tokens, List.cons_append, List.append_assoc, List.nil_append, readDefinition, if_true,
    readFragment, hds]
  simp [hs, h.name.2, withoutSigils]

theorem Definition.read_tokens {d : Definition} (h : d.Named) (fuel : Nat) (rest : List Token)
    (hf : d.tokens.length ≤ fuel) :
    readDefinition fuel (d.tokens ++ rest) = some (d.withoutSigils, rest) := by
  cases d with
  | fragment f => exact FragmentDefinition.read_tokens (f := f) h fuel rest hf
  | operation o => exact Operation.read_tokens (o := o) h fuel rest hf
  | unknown => exact h.elim

theorem Definition.tokens_ne_nil {d : Definition} (h : d.Named) : d.tokens ≠ [] := by
  cases d with
  | fragment f =>
    intro he
    cases he
  | operation o =>
    intro he
    simp [tokens, Operation.tokens] at he
  | unknown => exact h.elim

/-- Each definition is read up to its own brace, and then the next one. -/
theorem readDefinitions_tokens {ds : List Definition} (h : ∀ d ∈ ds, d.Named) (fuel : Nat)
    (hf : (ds.flatMap Definition.tokens).length < fuel) :
    readDefinitions fuel (ds.flatMap Definition.tokens) =
      some (ds.map Definition.withoutSigils) := by
  induction ds generalizing fuel with
  | nil => cases fuel <;> rfl
  | cons d ds ih =>
    obtain ⟨hd, hds⟩ := List.forall_mem_cons.1 h
    have hne := Definition.tokens_ne_nil hd
    have hpos : 0 < d.tokens.length := List.length_pos_iff.2 hne
    rw [List.flatMap_cons] at hf ⊢
    rw [List.length_append] at hf
    cases fuel with
    | zero => simp at hf
    | succ fuel =>
      have hread := Definition.read_tokens hd fuel (ds.flatMap Definition.tokens) (by omega)
      have hi := ih hds fuel (by omega)
      rw [readDefinitions, hread]
      · simp [hi]
      · intro he
        exact hne (List.append_eq_nil_iff.1 he).1

/-- A document that the grammar can express has a text in every layout that indents by white space,
and reading this text gives back the document without the at signs of its directives' names. -/
theorem Formatter.readDocument_format {f : Formatter} (hf : f.BlankIndent) (level : Nat)
    {d : Document} (h : d.Named) : ∃ text, f.format level (.document d) = .ok text ∧
      readDocument text = some d.withoutSigils := by
  obtain ⟨hn, hall⟩ := h.definitions
  obtain ⟨text, hformat, hscan⟩ := format_spells hf level hall
  refine ⟨text, hformat, ?_⟩
  have hread := readDefinitions_tokens hall (d.tokens.length + 1) (Nat.lt_succ_self _)
  have hmap : (d.definitions.map Definition.withoutSigils).isEmpty = false := by
    simpa using hn
  rw [readDocument, hscan]
  simp only [Option.bind_eq_bind, Option.bind_some]
  rw [show d.tokens = d.definitions.flatMap Definition.tokens from rfl] at hread ⊢
  rw [hread]
  simp only [Option.bind_some, hmap, Bool.false_eq_true, if_false]
  rfl

/-- A query with a variable whose default is null, and with a directive of the given name. -/
def sampleQuery (directive : String) : Document := ⟨[.operation
  { kind := .query
    declared := [("v", ⟨"[T!]", some .null, []⟩)]
    selections := [
      .field
        { name := "f"
          arguments := [("a", .list [.var "v", .string "\"\n"])]
          directives := [⟨directive, []⟩] },
      .spread { name := "F" }] }]⟩

theorem sampleQuery_named : (sampleQuery "@d").Named := by
  have htype : VariableDefinition.Named ⟨"[T!]", some .null, []⟩ :=
    ⟨⟨.list (.named "T" true) false, rfl, rfl⟩, by simp [Value.Named], by simp⟩
  have hdir : ∀ d ∈ [Directive.mk "@d" []], d.Named false :=
    List.forall_mem_singleton.2 ⟨rfl, trivial⟩
  have hspread : FragmentSpread.Named { name := "F" } := ⟨⟨rfl, by decide⟩, by simp⟩
  have hargs : Value.NamedFields false [("a", .list [.var "v", .string "\"\n"])] :=
    ⟨rfl, ⟨⟨rfl, rfl⟩, trivial, trivial⟩, trivial⟩
  refine ⟨by simp [sampleQuery], List.forall_mem_singleton.2 ?_⟩
  exact ⟨by simp, List.forall_mem_singleton.2 ⟨rfl, htype⟩, by simp,
    by simp, ⟨rfl, by simp, hargs, hdir, trivial⟩, hspread, trivial⟩

/-- The at sign of the directive is lost; the null stays a default. -/
theorem Formatter.readDocument_format_of_query :
    (Formatter.mk " \t").BlankIndent ∧ (sampleQuery "@d").Named ∧
      ∃ text, (Formatter.mk " \t").format 2 (.document (sampleQuery "@d")) = .ok text ∧
        readDocument text = some (sampleQuery "d") := by
  have hblank : (Formatter.mk " \t").BlankIndent := by
    intro c hc
    simpa using hc
  exact ⟨hblank, sampleQuery_named, readDocument_format hblank 2 sampleQuery_named⟩

end QueryDocument
