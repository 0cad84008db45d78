import QueryDocument.Proofs.Grammar.Rendered

/-!
Reading the tokens of a type, a value, directives or variables gives back what they were made from
and leaves what follows, as long as that does not go on with them.
-/
namespace QueryDocument

open Grammar

namespace Grammar

/-- The first of the tokens that follow is none of these. -/
def Clear (ts rest : List Token) : Prop := ∀ t ∈ ts, rest.head? ≠ some t

theorem clear_cons {ts : List Token} {t : Token} (h : t ∉ ts) (rest : List Token) :
    Clear ts (t :: rest) := by
  intro u hu he
  obtain rfl : t = u := Option.some.inj he
  exact h hu

theorem Clear.mono {ts us rest : List Token} (h : Clear us rest) (hs : ∀ t ∈ ts, t ∈ us) :
    Clear ts rest := fun t ht => h t (hs t ht)

theorem Clear.ne {ts rest : List Token} {t : Token} (h : Clear ts rest) (ht : t ∈ ts)
    (more : List Token) : rest ≠ t :: more := by
  rintro rfl
  exact h t ht rfl

/-- A bang is read exactly if there is one. -/
theorem readBang_tokens (required : Bool) {rest : List Token} (h : Clear [.bang] rest) :
    readBang (bangTokens required ++ rest) = (required, rest) := by
  cases required with
  | true => rfl
  | false =>
    simp only [bangTokens, Bool.false_eq_true, if_false, List.nil_append]
    unfold readBang
    split
    · exact absurd rfl (h.ne (by simp) _)
    · rfl

/-- By recursion over the type. The fuel is enough for its brackets. -/
theorem readType_tokens : ∀ (t : TypeReference) (fuel : Nat) (rest : List Token),
    t.tokens.length ≤ fuel → Clear [.bang] rest → readType fuel (t.tokens ++ rest) = some (t, rest)
  | .named name required, fuel, rest, _, h => by
    have hb := readBang_tokens required h
    cases fuel with
    | zero => simp only [TypeReference.tokens, List.cons_append, readType, hb]
    | succ fuel => simp only [TypeReference.tokens, List.cons_append, readType, hb]
  | .list item required, 0, rest, hf, _ => by
    simp [TypeReference.tokens] at hf
  | .list item required, fuel + 1, rest, hf, h => by
    have hb := readBang_tokens required h
    have hlen : item.tokens.length ≤ fuel := by
      simp only [TypeReference.tokens, List.length_cons, List.length_append] at hf
      omega
    have hi := readType_tokens item fuel (.closeBracket :: (bangTokens required ++ rest)) hlen
      (clear_cons (by simp) _)
    simp only [TypeReference.tokens, List.cons_append, List.append_assoc, readType, hi]
    simp [hb]

/-- A float is written so that it is not read as an integer. -/
theorem readNumber_float {x : Binary64} (h : x.isFinite = true) :
    readNumber x.numeral = some (.float x) := by
  simp [readNumber, Binary64.not_isInteger_numeral, Binary64.ofNumeral?_numeral h]

/-- Every integer is in the range that is read as one. -/
theorem readNumber_int (n : Int64) : readNumber (Numeral.ofInt n.toInt) = some (.int n) := by
  have hi : (Numeral.ofInt n.toInt).isInteger = true := rfl
  have hrange : Int64.minValue.toInt ≤ n.toInt ∧ n.toInt ≤ Int64.maxValue.toInt :=
    ⟨Int64.minValue_le_toInt n, Int64.toInt_le n⟩
  simp only [readNumber, hi, if_true, Numeral.integer_ofInt, hrange, and_self, Int64.ofInt_toInt]

end Grammar

namespace Value

theorem tokens_eq_cons (v : Value) :
    ∃ t ts, v.tokens = t :: ts ∧ t ≠ .closeBracket := by
  cases v with
  | bool b => exact ⟨_, _, rfl, by simp⟩
  | enum name => exact ⟨_, _, rfl, by simp⟩
  | float x => exact ⟨_, _, rfl, by simp⟩
  | int n => exact ⟨_, _, rfl, by simp⟩
  | list items => exact ⟨_, _, rfl, by simp⟩
  | null => exact ⟨_, _, rfl, by simp⟩
  | object fields => exact ⟨_, _, rfl, by simp⟩
  | string text => exact ⟨_, _, rfl, by simp⟩
  | var name => exact ⟨_, _, rfl, by simp⟩

/-- A value takes at least one token, so the fuel goes down from item to item. -/
theorem tokens_length_pos (v : Value) : 0 < v.tokens.length := by
  obtain ⟨t, ts, h, -⟩ := v.tokens_eq_cons
  rw [h]
  exact Nat.succ_pos _

theorem readItems_cons (c : Bool) (fuel : Nat) {t : Token} (h : t ≠ .closeBracket)
    (ts : List Token) : readItems c (fuel + 1) (t :: ts) = (do
      let (v, ts) ← readValue c fuel (t :: ts)
      let (vs, ts) ← readItems c fuel ts
      pure (v :: vs, ts)) := by
  rw [readItems]
  intro _ he
  exact h (List.cons.inj he).1

theorem readEntries_close (c : Bool) (fuel : Nat) {close : Token} (h : ∀ n, close ≠ .name n)
    (rest : List Token) : readEntries c close fuel (close :: rest) = some ([], rest) := by
  cases fuel with
  | zero => simp [readEntries]
  | succ fuel =>
    rw [readEntries, if_pos rfl]
    intro _ _ _ _ he _
    exact h _ he

mutual
/-- By recursion over the value, the fuel being the number of tokens left to read. What follows
the value is not looked at. -/
theorem readValue_tokens (c : Bool) : ∀ v : Value, v.Named c → ∀ fuel rest,
    v.tokens.length ≤ fuel → readValue c fuel (v.tokens ++ rest) = some (v, rest)
  | .bool b, _, fuel, rest, _ => by
    cases b <;> cases fuel <;> rfl
  | .enum name, h, fuel, rest, _ => by
    obtain ⟨-, ht, hf, hn⟩ := h
    cases fuel <;> simp [tokens, readValue, readWord, ht, hf, hn]
  | .float x, h, fuel, rest, _ => by
    cases fuel <;> simp [tokens, readValue, readNumber_float h]
  | .int n, _, fuel, rest, _ => by
    cases fuel <;> simp [tokens, readValue, readNumber_int]
  | .list items, h, 0, rest, hf => by
    simp [tokens] at hf
  | .list items, h, fuel + 1, rest, hf => by
    have hlen : (tokensOfItems items).length < fuel := by
      simp [tokens] at hf
      omega
    have hi := readItems_tokens c items h fuel rest hlen
    simp [tokens, readValue, hi]
  | .null, _, fuel, rest, _ => by
    cases fuel <;> rfl
  | .object fields, h, 0, rest, hf => by
    simp [tokens] at hf
  | .object fields, h, fuel + 1, rest, hf => by
    have hlen : (tokensOfFields fields).length < fuel := by
      simp [tokens] at hf
      omega
    have hi := readEntries_tokens c fields h fuel .closeBrace rest (by simp) hlen
    simp [tokens, readValue, hi]
  | .string text, _, fuel, rest, _ => by
    cases fuel <;> simp [tokens, readValue]
  | .var name, h, fuel, rest, _ => by
    cases fuel <;> simp [tokens, readValue, h.1]

theorem readItems_tokens (c : Bool) : ∀ vs : List Value, NamedItems c vs → ∀ fuel rest,
    (tokensOfItems vs).length < fuel →
    readItems c fuel (tokensOfItems vs ++ .closeBracket :: rest) = some (vs, rest)
  | [], _, fuel, rest, _ => by
    cases fuel <;> simp [tokensOfItems, readItems]
  | v :: vs, h, 0, rest, hf => by
    simp at hf
  | v :: vs, h, fuel + 1, rest, hf => by
    have hpos := v.tokens_length_pos
    simp only [tokensOfItems, List.length_append] at hf
    have hv := readValue_tokens c v h.1 fuel (tokensOfItems vs ++ .closeBracket :: rest) (by omega)
    have hvs := readItems_tokens c vs h.2 fuel rest (by omega)
    obtain ⟨t, ts, ht, hne⟩ := v.tokens_eq_cons
    rw [tokensOfItems, List.append_assoc]
    rw [ht, List.cons_append] at hv ⊢
    rw [readItems_cons c fuel hne, hv]
    simp [hvs]

/-- Fields and arguments differ in the token that closes them. -/
theorem readEntries_tokens (c : Bool) : ∀ fs : List (String × Value), NamedFields c fs →
    ∀ fuel close rest, (∀ n, close ≠ .name n) → (tokensOfFields fs).length < fuel →
    readEntries c close fuel (tokensOfFields fs ++ close :: rest) = some (fs, rest)
  | [], _, fuel, close, rest, hc, _ => by
    rw [tokensOfFields, List.nil_append]
    exact readEntries_close c fuel hc rest
  | (k, v) :: fs, h, 0, close, rest, hc, hf => by
    simp at hf
  | (k, v) :: fs, h, fuel + 1, close, rest, hc, hf => by
    obtain ⟨-, hv, hfs⟩ := h
    simp only [tokensOfFields, List.cons_append, List.length_cons, List.length_append] at hf
    have hv := readValue_tokens c v hv fuel (tokensOfFields fs ++ close :: rest) (by omega)
    have hfs := readEntries_tokens c fs hfs fuel close rest hc (by omega)
    simp [tokensOfFields, readEntries, hv, hfs]
end

end Value

/-- Without arguments no parenthesis may follow, which would be taken for theirs. -/
theorem readArguments_tokens {c : Bool} {args : Arguments} (h : Value.NamedFields c args)
    (fuel : Nat) (rest : List Token) (hf : (argumentTokens args).length ≤ fuel)
    (hr : Clear [.openParen] rest) :
    readArguments c fuel (argumentTokens args ++ rest) = some (args, rest) := by
  cases args with
  | nil =>
    simp only [argumentTokens, List.isEmpty_nil, if_true, List.nil_append]
    unfold readArguments
    split
    · exact absurd rfl (hr.ne (by simp) _)
    · rfl
  | cons a args =>
    simp only [argumentTokens, List.isEmpty_cons, Bool.false_eq_true, if_false, List.cons_append,
      List.append_assoc, List.nil_append, List.length_cons, List.length_append] at hf ⊢
    have he := Value.readEntries_tokens c _ h fuel .closeParen rest (by simp)
      (by simp at hf; omega)
    simp [readArguments, he]

/-- A directive is read back without the at sign that it may have been given. -/
theorem readDirectives_tokens {c : Bool} {ds : List Directive} (h : ∀ d ∈ ds, d.Named c)
    (fuel : Nat) (rest : List Token) (hf : (directiveTokens ds).length ≤ fuel)
    (hr : Clear [.openParen, .atSign] rest) :
    readDirectives c fuel (directiveTokens ds ++ rest) =
      some (ds.map Directive.withoutSigil, rest) := by
  induction ds generalizing fuel with
  | nil =>
    simp only [directiveTokens, List.flatMap_nil, List.nil_append]
    unfold readDirectives
    split
    · exact absurd rfl (hr.ne (by simp) _)
    · exact absurd rfl (hr.ne (by simp) _)
    · rfl
  | cons d ds ih =>
    obtain ⟨hd, hds⟩ := List.forall_mem_cons.1 h
    simp only [directiveTokens, List.flatMap_cons, Directive.tokens, List.cons_append,
      List.length_cons, List.length_append] at hf ⊢
    cases fuel with
    | zero => simp at hf
    | succ fuel =>
      have hclear : Clear [.openParen] (directiveTokens ds ++ rest) := by
        cases ds with
        | nil => exact hr.mono (by simp)
        | cons d' ds => exact clear_cons (by simp) _
      have ha := readArguments_tokens hd.arguments fuel _ (by omega) hclear
      have hi := ih hds fuel (by simp only [directiveTokens]; omega)
      rw [List.append_assoc, readDirectives, ← directiveTokens, ha]
      simp [hi, Directive.withoutSigil]

namespace VariableDefinition

theorem readDefault_tokens {v : Option Value} (h : ∀ x, v = some x → x.Named true) (fuel : Nat)
    (rest : List Token) (hf : (defaultTokens v).length ≤ fuel) (hr : Clear [.equals] rest) :
    readDefault fuel (defaultTokens v ++ rest) = some (v, rest) := by
  cases v with
  | none =>
    simp only [defaultTokens, List.nil_append]
    unfold readDefault
    split
    · exact absurd rfl (hr.ne (by simp) _)
    · rfl
  | some v =>
    simp only [defaultTokens, List.length_cons] at hf
    have hv := v.readValue_tokens true (h v rfl) fuel rest (by omega)
    simp [defaultTokens, readDefault, hv]

/-- A variable is read up to the first token that is no part of it. -/
theorem readVariable_tokens (name : String) {d : VariableDefinition} (h : d.Named) (fuel : Nat)
    (rest : List Token) (hf : (d.tokens name).length ≤ fuel)
    (hr : Clear [.bang, .equals, .openParen, .atSign] rest) :
    readVariable fuel (d.tokens name ++ rest) = some ((name, d.withoutSigils), rest) := by
  obtain ⟨t, ht, htype⟩ := h.type
  simp only [tokens, List.length_cons, List.length_append] at hf
  have hdirs := readDirectives_tokens h.directives fuel rest (by omega) (hr.mono (by simp))
  have hclear : Clear [.bang, .equals] (directiveTokens d.directives ++ rest) := by
    cases d.directives with
    | nil => exact hr.mono (by simp)
    | cons x xs => exact clear_cons (by simp) _
  have hdflt := readDefault_tokens h.default fuel _ (by omega) (hclear.mono (by simp))
  have hbang :
      Clear [.bang] (defaultTokens d.default ++ (directiveTokens d.directives ++ rest)) := by
    cases d.default with
    | none => exact hclear.mono (by simp)
    | some v => exact clear_cons (by simp) _
  rw [htype, typeTokens_text ht] at hf
  have ht' := readType_tokens t fuel _ (by omega) hbang
  simp only [tokens, htype, typeTokens_text ht, List.cons_append, List.append_assoc, readVariable]
  simp [ht', hdflt, hdirs, withoutSigils, htype]

theorem readMoreVariables_tokens {ds : Keyed VariableDefinition} (h : ∀ e ∈ ds, e.2.Named)
    (fuel : Nat) (rest : List Token) (hf : (ds.flatMap fun d => d.2.tokens d.1).length < fuel) :
    readMoreVariables fuel ((ds.flatMap fun d => d.2.tokens d.1) ++ .closeParen :: rest) =
      some (ds.map fun e => (e.1, e.2.withoutSigils), rest) := by
  induction ds generalizing fuel with
  | nil => cases fuel <;> simp [readMoreVariables]
  | cons d ds ih =>
    obtain ⟨hd, hds⟩ := List.forall_mem_cons.1 h
    cases fuel with
    | zero => simp at hf
    | succ fuel =>
      have hpos : 0 < (d.2.tokens d.1).length := Nat.succ_pos _
      simp only [List.flatMap_cons, List.length_append] at hf
      have hclear : Clear [.bang, .equals, .openParen, .atSign]
          ((ds.flatMap fun d => d.2.tokens d.1) ++ .closeParen :: rest) := by
        cases ds with
        | nil => exact clear_cons (by simp) _
        | cons d' ds => exact clear_cons (by simp) _
      have hv := readVariable_tokens d.1 hd fuel _ (by omega) hclear
      have hi := ih hds fuel (by omega)
      obtain ⟨ts, hts⟩ : ∃ ts, d.2.tokens d.1 = .dollar :: ts := ⟨_, rfl⟩
      rw [List.flatMap_cons, List.append_assoc]
      rw [hts, List.cons_append] at hv ⊢
      rw [readMoreVariables, hv]
      · simp [hi]
      · intro _ he
        cases he

end VariableDefinition

theorem readVariables_tokens {ds : Keyed VariableDefinition} (h : ∀ e ∈ ds, e.2.Named) (fuel : Nat)
    (rest : List Token) (hf : (variableTokens ds).length ≤ fuel) (hr : Clear [.openParen] rest) :
    readVariables fuel (variableTokens ds ++ rest) =
      some (ds.map fun e => (e.1, e.2.withoutSigils), rest) := by
  cases ds with
  | nil =>
    simp only [variableTokens, List.isEmpty_nil, if_true, List.nil_append]
    unfold readVariables
    split
    · exact absurd rfl (hr.ne (by simp) _)
    · rfl
  | cons d ds =>
    simp only [variableTokens, List.isEmpty_cons, Bool.false_eq_true, if_false, List.cons_append,
      List.append_assoc, List.nil_append, List.length_cons, List.length_append] at hf ⊢
    have hv := VariableDefinition.readMoreVariables_tokens h fuel rest (by simp at hf ⊢; omega)
    rw [readVariables, hv]
    rfl

end QueryDocument
