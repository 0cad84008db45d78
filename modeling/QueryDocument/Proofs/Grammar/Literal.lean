import QueryDocument.Proofs.Grammar.Parts
import QueryDocument.Proofs.Grammar.Rendered

/-!
A value read from the head of a text. The tokens of the text are looked at as far as there are any,
since what follows the value need not be in the language; the grammar tells how many of them the
value takes, and what stands behind the last of these is left.
-/
namespace QueryDocument

namespace Grammar

/-- The tokens from the head of a text on, each with what stands behind it, up to where there is
none. -/
def tokensFrom : Nat → List Char → List (Token × List Char)
  | fuel + 1, c :: cs =>
    if isIgnored c then tokensFrom fuel cs
    else if c = '#' then
      match skipComment cs with
      | some cs => tokensFrom fuel cs
      | none => []
    else
      match scanToken c cs with
      | some (t, rest) => (t, rest) :: tokensFrom fuel rest
      | none => []
  | _, _ => []

/-- The value at the head of a text, and what stands behind its last token. -/
def readLiteral (constant : Bool) (cs : List Char) : Option (Value × List Char) := do
  let marks := tokensFrom cs.length cs
  let (v, ts) ← readValue constant marks.length (marks.map Prod.fst)
  let (_, rest) ← (marks.take (marks.length - ts.length)).getLast?
  pure (v, rest)

/-- Taking no token takes nothing but ignored characters. -/
theorem Takes.blank {cs rest : List Char} (h : Takes cs [] rest) :
    ∃ blank, (∀ c ∈ blank, isIgnored c = true) ∧ cs = blank ++ rest := by
  generalize hts : [] = ts at h
  induction h with
  | done => exact ⟨[], by simp, rfl⟩
  | @skip c _ _ _ hi _ ih =>
    obtain ⟨blank, hblank, rfl⟩ := ih hts
    exact ⟨c :: blank, List.forall_mem_cons.2 ⟨hi, hblank⟩, rfl⟩
  | token => cases hts

/-- Between the last of the tokens and the rest stands nothing but what is ignored. -/
theorem Takes.tokensFrom {cs rest : List Char} {ts : List Token} (h : Takes cs ts rest)
    {fuel : Nat} (hf : cs.length ≤ fuel) :
    ∃ marks more, tokensFrom fuel cs = marks ++ more ∧ marks.map Prod.fst = ts ∧
      ∀ m, marks.getLast? = some m → m.2 <:+ cs ∧
        ∃ blank, (∀ c ∈ blank, isIgnored c = true) ∧ m.2 = blank ++ rest := by
  induction h generalizing fuel with
  | done rest => exact ⟨[], Grammar.tokensFrom fuel rest, rfl, rfl, nofun⟩
  -- What is ignored leaves no mark, so the last mark is the one found behind it.
  | @skip c cs rest ts hi _ ih =>
    obtain _ | fuel := fuel
    · exact absurd hf (Nat.not_succ_le_zero _)
    · obtain ⟨marks, more, hm, hts, hlast⟩ := ih (Nat.le_of_succ_le_succ hf)
      refine ⟨marks, more, ?_, hts, fun m hg => ?_⟩
      · rw [Grammar.tokensFrom, if_pos hi, hm]
      · obtain ⟨hsuffix, hblank⟩ := hlast m hg
        exact ⟨hsuffix.trans (List.suffix_cons c cs), hblank⟩
  | @token c word behind rest t ts hi hc ht h ih =>
    obtain _ | fuel := fuel
    · exact absurd hf (Nat.not_succ_le_zero _)
    · have hfuel : behind.length ≤ fuel := by
        simp only [List.length_cons, List.length_append] at hf
        omega
      have hbehind : behind <:+ c :: (word ++ behind) :=
        (List.suffix_append word behind).trans (List.suffix_cons c _)
      obtain ⟨marks, more, hm, hts, hlast⟩ := ih hfuel
      refine ⟨(t, behind) :: marks, more, ?_, by rw [List.map_cons, hts], fun m hg => ?_⟩
      · rw [Grammar.tokensFrom, if_neg (by simp [hi]), if_neg hc, ht]
        exact congrArg ((t, behind) :: ·) hm
      -- This mark is the last one only if there is no other behind it.
      · cases marks with
        | nil =>
          cases hg
          cases hts
          exact ⟨hbehind, h.blank⟩
        | cons mark marks =>
          obtain ⟨hsuffix, hblank⟩ := hlast m (by rwa [List.getLast?_cons_cons] at hg)
          exact ⟨hsuffix.trans hbehind, hblank⟩

/-- A text whose last character is not ignored, and so belongs to its last token. -/
def Solid (text : String) : Prop := ∃ c, text.toList.getLast? = some c ∧ isIgnored c = false

theorem Solid.append {b : String} (h : Solid b) (a : String) : Solid (a ++ b) := by
  obtain ⟨c, hc, hi⟩ := h
  refine ⟨c, ?_, hi⟩
  rw [String.toList_append, List.getLast?_append, hc]
  rfl

theorem solid_of_forall {text : String} (hne : text.toList ≠ [])
    (h : ∀ c ∈ text.toList, isIgnored c = false) : Solid text :=
  ⟨text.toList.getLast hne, List.getLast?_eq_getLast_of_ne_nil hne, h _ (List.getLast_mem hne)⟩

theorem solid_name {text : String} (h : isName text = true) : Solid text := by
  unfold isName at h
  split at h
  · cases h
  · rename_i c cs ht
    obtain ⟨hs, hcs⟩ := Bool.and_eq_true_iff.1 h
    refine solid_of_forall (by simp [ht]) fun x hx => isIgnored_of_isWord ?_
    rw [ht] at hx
    rcases List.mem_cons.1 hx with rfl | hx
    · simp [isWord, isNameContinue_of_start hs]
    · simp [isWord, List.all_eq_true.1 hcs x hx]

theorem solid_number {n : Numeral} (hn : n.Literal) {text : String} (ht : text.toList = n.chars) :
    Solid text := by
  have hne : text.toList ≠ [] := by
    have hwhole := hn.whole.1
    simp [ht, Numeral.chars, hwhole]
  refine solid_of_forall hne fun c hc => ?_
  cases hi : isIgnored c with
  | false => rfl
  | true =>
    rcases eq_of_isIgnored hi with rfl | rfl | rfl | rfl | rfl | rfl
    all_goals exact absurd hc (hn.notMem_toList ht (by decide) (by decide))

/-- What is ignored at the end of a text would be the end of all of it. -/
theorem Solid.eq_nil {text : String} (h : Solid text) {blank : List Char}
    (hb : blank <:+ text.toList) (hi : ∀ c ∈ blank, isIgnored c = true) : blank = [] := by
  obtain ⟨c, hc, hsolid⟩ := h
  obtain ⟨before, htext⟩ := hb
  by_contra hne
  rw [← htext, List.getLast?_append_of_ne_nil before hne] at hc
  rw [hi c (List.mem_of_getLast? hc)] at hsolid
  cases hsolid

/-- The rest of the text is left as it is, even if it begins with what is ignored. -/
theorem readLiteral_of_spells {constant : Bool} {v : Value} (hv : v.Named constant) {text : String}
    (hs : Spells text v.tokens) (hsolid : Solid text) {rest : List Char} (hr : Apart rest) :
    readLiteral constant (text.toList ++ rest) = some (v, rest) := by
  obtain ⟨marks, more, hm, hts, hlast⟩ := (hs rest hr).tokensFrom (Nat.le_refl _)
  have hread := v.readValue_tokens constant hv (marks ++ more).length (more.map Prod.fst)
    (by rw [← hts, List.length_map, List.length_append]; omega)
  have hcount : (marks ++ more).length - (more.map Prod.fst).length = marks.length := by
    rw [List.length_map, List.length_append, Nat.add_sub_cancel]
  obtain ⟨t, ts, ht, -⟩ := v.tokens_eq_cons
  have hmarks : marks ≠ [] := by
    rintro rfl
    rw [ht] at hts
    cases hts
  have hget := List.getLast?_eq_getLast_of_ne_nil hmarks
  have hrest : (marks.getLast hmarks).2 = rest := by
    obtain ⟨hsuffix, blank, hblank, heq⟩ := hlast _ hget
    rw [heq] at hsuffix
    have hend := ((List.suffix_append_inj_of_length_eq rfl).1 hsuffix).1
    rw [heq, hsolid.eq_nil hend hblank, List.nil_append]
  simp only [readLiteral, hm, List.map_append, hts, hread, Option.bind_eq_bind, Option.bind_some,
    hcount, List.take_left, hget]
  exact congrArg (fun cs => some (v, cs)) hrest

/-- What may stand behind a value in a document written with spaces, line breaks and commas. -/
def Delimited (rest : List Char) : Prop :=
  ∀ c, rest.head? = some c → c ∈ [' ', '\n', ',', ')', ']', '\x7d']

/-- A delimiter ends every token before it. -/
theorem Delimited.apart {rest : List Char} (h : Delimited rest) : Apart rest := by
  cases rest with
  | nil => exact ⟨rfl, by simp⟩
  | cons c rest =>
    have hc := h c rfl
    simp only [List.mem_cons, List.not_mem_nil, or_false] at hc
    rcases hc with rfl | rfl | rfl | rfl | rfl | rfl
    all_goals exact apart_cons rest (by decide)

end Grammar

namespace Value

open Grammar

/-- The last character of a literal is part of a token, so that no blank at its end could be
taken for what follows. -/
theorem render_solid {constant : Bool} {v : Value} (h : v.Named constant) {text : String}
    (ht : v.render constant = .ok text) : Solid text := by
  -- No literal ends in a blank: the last character is a letter, a digit, a bracket or a quote.
  cases v with
  | bool b =>
    cases ht
    cases b <;> exact solid_name rfl
  | enum name =>
    rw [render, if_neg (by simp [isName_ne_empty h.1])] at ht
    cases ht
    exact solid_name h.1
  | float x =>
    have hf : x.isFinite = true := h
    rw [render, if_pos hf] at ht
    cases ht
    refine solid_number (Binary64.numeral_literal hf) ?_
    rw [Binary64.text, String.toList_ofList, Binary64.chars_eq_numeral_chars hf]
  | int n =>
    cases ht
    exact solid_number (Numeral.ofInt_literal _) (Numeral.toList_toString_eq_chars _)
  | list items =>
    obtain ⟨texts, -, ht⟩ := Outcome.bind_eq_ok.1 ht
    cases ht
    exact Solid.append ⟨']', rfl, rfl⟩ _
  | null =>
    cases ht
    exact solid_name rfl
  | object fields =>
    obtain ⟨texts, -, ht⟩ := Outcome.bind_eq_ok.1 ht
    cases ht
    exact Solid.append ⟨'\x7d', rfl, rfl⟩ _
  | string text =>
    cases ht
    refine ⟨'"', ?_, rfl⟩
    rw [Text.Quotation.toList_quote, List.getLast?_concat]
  | var name =>
    obtain ⟨hc, hn⟩ := h
    rw [render, if_neg (by simp [isName_ne_empty hn]), if_neg (by simp [hc])] at ht
    cases ht
    exact (solid_name hn).append "$"

/-- Values are read back from what they are written as, whatever delimiter follows, and no two of
them are written alike. -/
theorem readLiteral_render (constant : Bool) (v : Value) (h : v.Named constant) :
    ∃ text, v.render constant = .ok text ∧
      (∀ rest, Delimited rest →
        readLiteral constant (text.toList ++ rest) = some (v, rest)) ∧
      ∀ w : Value, w.Named constant → w.render constant = .ok text → w = v := by
  have hreads {u : Value} (hu : u.Named constant) {text : String}
      (ht : u.render constant = .ok text) (rest : List Char) (hr : Delimited rest) :
      readLiteral constant (text.toList ++ rest) = some (u, rest) := by
    obtain ⟨text', ht', hs⟩ := u.render_spells constant hu
    obtain rfl : text' = text := Except.ok.inj (ht'.symm.trans ht)
    exact readLiteral_of_spells hu hs (render_solid hu ht) hr.apart
  obtain ⟨text, ht, -⟩ := v.render_spells constant h
  refine ⟨text, ht, hreads h ht, fun w hw hwt => ?_⟩
  have hv := hreads h ht [] nofun
  rw [hreads hw hwt [] nofun] at hv
  cases hv
  rfl

/-- Values that are told apart by a quote, a sign, a point or one letter. -/
def lookalikes : Value :=
  .object [("null", .list [.int Int64.minValue, .float ⟨0x8000000000000000⟩, .int 0, .null,
      .enum "nul", .string "nul", .var "true", .bool true]),
    ("e", .object [("s", .list [.string "]\x7d\"\n", .object []])])]

/-- What stands behind the value here is not in the language. -/
theorem readLiteral_render_of_lookalikes :
    lookalikes.Named false ∧ Delimited ",\"".toList ∧ ∃ text,
      text = "\x7bnull: [-9223372036854775808, -0.0, 0, null, nul, \"nul\", $true, true], " ++
        "e: \x7bs: [\"]\x7d\\\"\\n\", \x7b\x7d]\x7d\x7d" ∧
      lookalikes.render false = .ok text ∧
      readLiteral false (text.toList ++ ",\"".toList) = some (lookalikes, ",\"".toList) := by
  have hnamed : lookalikes.Named false := by
    simp only [lookalikes, Named, NamedFields, NamedItems]
    decide +kernel
  have hrest : Delimited ",\"".toList := by
    rintro c ⟨⟩
    decide
  obtain ⟨text, ht, hreads, -⟩ := readLiteral_render false lookalikes hnamed
  refine ⟨hnamed, hrest, text, ?_, ht, hreads _ hrest⟩
  exact Except.ok.inj (ht.symm.trans rfl)

end Value
end QueryDocument
