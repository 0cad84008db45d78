import QueryDocument.Proofs.Decimal.Literal
import QueryDocument.Proofs.Grammar.Lexer

/-!
Texts that the lexer takes apart wherever they stand. `Lexes gap text ts` says that from a text in
front of any rest with the property `gap` the tokens `ts` can be taken, which leaves the rest; such
texts are joined by `Lexes.append`, and texts between separators by `SpellsAll.intercalate`.
-/
namespace QueryDocument
namespace Grammar

/-- The tokens stand at the head of the text, and `rest` is left when they and what is ignored are
taken from it. -/
inductive Takes : List Char → List Token → List Char → Prop where
  | done (rest : List Char) : Takes rest [] rest
  | skip {c : Char} {cs rest : List Char} {ts : List Token} (hi : isIgnored c = true)
    (h : Takes cs ts rest) : Takes (c :: cs) ts rest
  | token {c : Char} {word behind rest : List Char} {t : Token} {ts : List Token}
    (hi : isIgnored c = false) (hc : c ≠ '#')
    (ht : scanToken c (word ++ behind) = some (t, behind)) (h : Takes behind ts rest) :
    Takes (c :: (word ++ behind)) (t :: ts) rest

theorem Takes.trans {cs mid rest : List Char} {ts us : List Token} (h : Takes cs ts mid)
    (h' : Takes mid us rest) : Takes cs (ts ++ us) rest := by
  induction h with
  | done => exact h'
  | skip hi _ ih => exact .skip hi (ih h')
  | token hi hc ht _ ih => exact .token hi hc ht (ih h')

/-- No token is shorter than one character, so that the length of the text is fuel enough. -/
theorem Takes.scanUpTo {cs : List Char} {ts : List Token} (h : Takes cs ts []) {fuel : Nat}
    (hf : cs.length ≤ fuel) : scanUpTo fuel cs = some ts := by
  generalize hrest : [] = rest at h
  induction h generalizing fuel with
  | done =>
    subst hrest
    cases fuel <;> rfl
  | skip hi _ ih =>
    obtain _ | fuel := fuel
    · exact absurd hf (Nat.not_succ_le_zero _)
    · rw [Grammar.scanUpTo, if_pos hi, ih (Nat.le_of_succ_le_succ hf) hrest]
  | @token c word behind _ t ts hi hc ht _ ih =>
    obtain _ | fuel := fuel
    · exact absurd hf (Nat.not_succ_le_zero _)
    · have hbehind : behind.length ≤ fuel := by
        simp only [List.length_cons, List.length_append] at hf
        omega
      rw [Grammar.scanUpTo, if_neg (by simp [hi]), if_neg hc, ht]
      simp [ih hbehind hrest]

def Lexes (gap : List Char → Prop) (text : String) (ts : List Token) : Prop :=
  ∀ rest, gap rest → Takes (text.toList ++ rest) ts rest

/-- Nothing follows that could belong to a name, a number or a string before it. -/
def Apart (rest : List Char) : Prop := isApart rest = true ∧ rest.head? ≠ some '"'

/-- Texts that are taken apart whatever follows. -/
abbrev Firm := Lexes fun _ => True

/-- Texts that must not run into what follows. -/
abbrev Spells := Lexes Apart

/-- A text that nothing before it runs into. -/
def Opens (text : String) : Prop := ∀ rest, Apart (text.toList ++ rest)

theorem Lexes.nil (gap : List Char → Prop) : Lexes gap "" [] := fun rest _ => .done rest

/-- The second text must be something that may follow the first. -/
theorem Lexes.append {gap gap' : List Char → Prop} {a b : String} {ts us : List Token}
    (ha : Lexes gap a ts) (hb : Lexes gap' b us)
    (h : ∀ rest, gap' rest → gap (b.toList ++ rest)) : Lexes gap' (a ++ b) (ts ++ us) := by
  intro rest hr
  rw [String.toList_append, List.append_assoc]
  exact (ha _ (h rest hr)).trans (hb rest hr)

/-- What may follow anything may follow less. -/
theorem Lexes.weaken {gap gap' : List Char → Prop} {a : String} {ts : List Token}
    (ha : Lexes gap a ts) (h : ∀ rest, gap' rest → gap rest) : Lexes gap' a ts :=
  fun rest hr => ha rest (h rest hr)

theorem Firm.spells {a : String} {ts : List Token} (h : Firm a ts) : Spells a ts :=
  h.weaken fun _ _ => trivial

/-- Behind a text that ends by itself anything may stand. -/
theorem Firm.append {gap : List Char → Prop} {a b : String} {ts us : List Token} (ha : Firm a ts)
    (hb : Lexes gap b us) : Lexes gap (a ++ b) (ts ++ us) :=
  Lexes.append ha hb fun _ _ => trivial

/-- Behind a name or a number must stand what opens something else. -/
theorem Spells.append {gap : List Char → Prop} {a b : String} {ts us : List Token}
    (ha : Spells a ts) (hb : Lexes gap b us) (ho : Opens b) : Lexes gap (a ++ b) (ts ++ us) :=
  Lexes.append ha hb fun rest _ => ho rest

/-- A character that no name and no number can have separates them from it. -/
theorem apart_cons {c : Char} (rest : List Char)
    (h : isNameContinue c = false ∧ c ≠ '.' ∧ c ≠ '"') : Apart (c :: rest) := by
  obtain ⟨h₁, h₂, h₃⟩ := h
  refine ⟨by simp [isApart, h₁, h₂], ?_⟩
  intro he
  exact h₃ (Option.some.inj he)

/-- Whether a text begins with a character that ends whatever stands before it. -/
theorem opens_of_head {text : String} {c : Char} {cs : List Char} (ht : text.toList = c :: cs)
    (h : isNameContinue c = false ∧ c ≠ '.' ∧ c ≠ '"') : Opens text := by
  intro rest
  rw [ht]
  exact apart_cons _ h

theorem Opens.append {a : String} (h : Opens a) (b : String) : Opens (a ++ b) := by
  intro rest
  rw [String.toList_append, List.append_assoc]
  exact h _

theorem firm_of_ignored {text : String} (h : ∀ c ∈ text.toList, isIgnored c = true) :
    Firm text [] := by
  intro rest _
  revert h
  induction text.toList with
  | nil => exact fun _ => .done rest
  | cons c cs ih =>
    intro h
    obtain ⟨hc, hcs⟩ := List.forall_mem_cons.1 h
    exact .skip hc (ih hcs)

/-- One token that is found in one step. -/
theorem lexes_of_scanToken {gap : List Char → Prop} {text : String} {c : Char} {cs : List Char}
    {t : Token} (ht : text.toList = c :: cs) (hi : isIgnored c = false) (hc : c ≠ '#')
    (h : ∀ rest, gap rest → scanToken c (cs ++ rest) = some (t, rest)) : Lexes gap text [t] := by
  intro rest hr
  rw [ht, List.cons_append]
  exact .token hi hc (h rest hr) (.done rest)

/-- A punctuator is told by its character alone. -/
theorem firm_punctuator {text : String} {c : Char} {t : Token} (ht : text.toList = [c])
    (h : isIgnored c = false ∧ c ≠ '#' ∧ punctuator? c = some t) : Firm text [t] := by
  obtain ⟨hi, hc, hp⟩ := h
  refine lexes_of_scanToken ht hi hc fun rest _ => ?_
  simp [scanToken, hp]

theorem firm_spread : Firm "..." [.spread] :=
  lexes_of_scanToken (c := '.') rfl rfl (by decide) fun _ _ => rfl

theorem firm_blank : Firm " " [] := firm_of_ignored (by simp [isIgnored, isWhite])
theorem firm_comma : Firm ", " [] := firm_of_ignored (by simp [isIgnored, isWhite])
theorem firm_line : Firm "\n" [] := firm_of_ignored (by simp [isIgnored, isLineEnd])
theorem opens_blank : Opens " " := opens_of_head (c := ' ') rfl (by decide)
theorem opens_comma : Opens ", " := opens_of_head (c := ',') rfl (by decide)
theorem opens_line : Opens "\n" := opens_of_head (c := '\n') rfl (by decide)

/-- Characters that begin a name or a number are told from all others by one test each. -/
def isWord (c : Char) : Bool := isNameContinue c || c == '-'

/-- No punctuator is part of a name or a number. -/
theorem punctuator?_of_isWord {c : Char} (h : isWord c = true) : punctuator? c = none := by
  unfold punctuator?
  split
  all_goals first
    | rfl
    | (revert h; decide)

theorem eq_of_isIgnored {c : Char} (h : isIgnored c = true) :
    c = ' ' ∨ c = '\t' ∨ c = '\n' ∨ c = '\r' ∨ c = ',' ∨ c = '\uFEFF' := by
  simpa [isIgnored, isWhite, isLineEnd, or_assoc] using h

theorem isIgnored_of_isWord {c : Char} (h : isWord c = true) : isIgnored c = false := by
  cases hi : isIgnored c with
  | false => rfl
  | true =>
    rcases eq_of_isIgnored hi with rfl | rfl | rfl | rfl | rfl | rfl
    all_goals exact absurd h (by decide)

theorem ne_of_isWord {c c' : Char} (h : isWord c = true) (h' : isWord c' = false) : c ≠ c' := by
  rintro rfl
  rw [h] at h'
  cases h'

/-- A name goes on as far as it can. -/
theorem span_name {cs : List Char} (h : cs.all isNameContinue = true) {rest : List Char}
    (hr : isApart rest = true) :
    (cs ++ rest).takeWhile isNameContinue = cs ∧ (cs ++ rest).dropWhile isNameContinue = rest := by
  induction cs with
  | nil =>
    cases rest with
    | nil => exact ⟨rfl, rfl⟩
    | cons c rest =>
      have hc : isNameContinue c = false := by
        simp only [isApart, Bool.and_eq_true, Bool.not_eq_true'] at hr
        exact hr.1
      simp [hc]
  | cons c cs ih =>
    simp only [List.all_cons, Bool.and_eq_true] at h
    obtain ⟨ih₁, ih₂⟩ := ih h.2
    simp [h.1, ih₁, ih₂]

theorem isNameContinue_of_start {c : Char} (h : isNameStart c = true) :
    isNameContinue c = true := by
  simp only [isNameStart, isNameContinue, Char.isAlphanum, Bool.or_eq_true] at h ⊢
  rcases h with h | h
  · exact .inl (.inl h)
  · exact .inr h

/-- A name is one token, if what follows does not go on with it. -/
theorem spells_name {text : String} (h : isName text = true) : Spells text [.name text] := by
  unfold isName at h
  split at h
  case h_1 => cases h
  case h_2 c cs ht =>
    simp only [Bool.and_eq_true] at h
    obtain ⟨hs, hcs⟩ := h
    have hw : isWord c = true := by simp [isWord, isNameContinue_of_start hs]
    have hall : (c :: cs).all isNameContinue = true := by
      simp only [List.all_cons, Bool.and_eq_true]
      exact ⟨isNameContinue_of_start hs, hcs⟩
    refine lexes_of_scanToken ht (isIgnored_of_isWord hw) (ne_of_isWord hw rfl) fun rest hr => ?_
    obtain ⟨htake, hdrop⟩ := span_name hall hr.1
    rw [List.cons_append] at htake hdrop
    have htext : String.ofList (c :: cs) = text := by rw [← ht, String.ofList_toList]
    rw [scanToken, punctuator?_of_isWord hw]
    dsimp only
    rw [if_neg (ne_of_isWord hw rfl), if_neg (ne_of_isWord hw rfl), if_pos hs, scanName, htake,
      hdrop, htext]

/-- What ends a name ends a number too. -/
theorem endsAt_of_apart {rest : List Char} (h : isApart rest = true) : Numeral.EndsAt rest := by
  cases rest with
  | nil => exact Numeral.endsAt_nil
  | cons c rest =>
    simp only [isApart, Bool.and_eq_true, Bool.not_eq_true', bne_iff_ne] at h
    obtain ⟨hc, hp⟩ := h
    have hne : ∀ c', isNameContinue c' = true → c ≠ c' := by
      rintro c' h' rfl
      rw [h'] at hc
      cases hc
    refine Numeral.endsAt_cons rest ⟨?_, hp, hne 'e' rfl, hne 'E' rfl⟩
    simp only [isNameContinue, Char.isAlphanum, Bool.or_eq_false_iff] at hc
    exact hc.1.2

/-- A number is not taken for a name. -/
theorem not_isNameStart_of_isDigit {c : Char} (h : c.isDigit = true) : isNameStart c = false := by
  have hd : c.toNat ≤ 57 := by
    simp only [Char.isDigit, Bool.and_eq_true, decide_eq_true_eq, UInt32.le_iff_toNat_le] at h
    exact h.2
  have hword : isNameStart c = (decide ('A'.val ≤ c.val ∧ c.val ≤ 'Z'.val) ||
      decide ('a'.val ≤ c.val) && decide (c.val ≤ 'z'.val) || c == '_') := rfl
  have hu : c ≠ '_' := by
    rintro rfl
    exact absurd hd (by decide)
  have hupper : ¬ 'A'.val ≤ c.val := by
    intro hle
    exact absurd (Nat.le_trans (UInt32.le_iff_toNat_le.1 hle) hd) (by decide)
  have hlower : ¬ 'a'.val ≤ c.val := by
    intro hle
    exact absurd (Nat.le_trans (UInt32.le_iff_toNat_le.1 hle) hd) (by decide)
  simp only [hword, hupper, hlower, false_and, decide_false, Bool.false_and, Bool.or_false,
    Bool.false_or, beq_eq_false_iff_ne]
  exact hu

/-- A number is one token, sign, fraction and exponent included. -/
theorem spells_number {n : Numeral} (hn : n.Literal) {text : String} (ht : text.toList = n.chars) :
    Spells text [.number n] := by
  -- A minus sign or a digit tells the number from all other tokens.
  have hhead : ∃ c cs, n.chars = c :: cs ∧ isWord c = true ∧ isNameStart c = false := by
    obtain ⟨hw, hd⟩ := hn.whole
    obtain ⟨negative, whole, fraction, exponent⟩ := n
    cases negative with
    | true => exact ⟨'-', _, rfl, rfl, rfl⟩
    | false =>
      cases whole with
      | nil => exact absurd rfl hw
      | cons c cs =>
        have hc : c.isDigit = true := hd c List.mem_cons_self
        exact ⟨c, _, rfl, by simp [isWord, isNameContinue, Char.isAlphanum, hc],
          not_isNameStart_of_isDigit hc⟩
  obtain ⟨c, cs, hcs, hw, hs⟩ := hhead
  refine lexes_of_scanToken (ht.trans hcs) (isIgnored_of_isWord hw) (ne_of_isWord hw rfl)
    fun rest hr => ?_
  have hscan := Numeral.scan_chars hn (endsAt_of_apart hr.1)
  rw [hcs, List.cons_append] at hscan
  rw [scanToken, punctuator?_of_isWord hw]
  dsimp only
  rw [if_neg (ne_of_isWord hw rfl), if_neg (ne_of_isWord hw rfl), if_neg (by simp [hs]),
    scanNumber, hscan]
  simp [hr.1]

/-- Printable characters may stand in a string, but for the quote and the backslash. -/
theorem isRaw_of_ascii {c : Char} (h₁ : 0x20 ≤ c.toNat) (h₂ : c.toNat ≤ 0x7E) :
    isRaw c = true := by
  have hn : c ≠ '\n' := by
    rintro rfl
    exact absurd h₁ (by decide)
  have hr : c ≠ '\r' := by
    rintro rfl
    exact absurd h₁ (by decide)
  simp [isRaw, isSource, isLineEnd, hn, hr]
  omega

/-- An empty string with another quote behind it would open a block string. -/
theorem scanString_chars (text : String) {rest : List Char} (h : rest.head? ≠ some '"') :
    scanString (Text.asciiQuotation.chars text.toList ++ '"' :: rest) =
      some (.string text, rest) := by
  have hread : Text.asciiQuotation.Readable isRaw :=
    Text.asciiQuotation_readable isRaw fun c h₁ h₂ => isRaw_of_ascii h₁ h₂
  have hscan := Text.scanWith_chars hread text.toList rest
  unfold scanString
  split
  case h_1 cs heq =>
    cases hc : text.toList with
    | nil =>
      rw [hc] at heq
      exact absurd (by rw [(List.cons.inj heq).2]; rfl) h
    | cons c cs' =>
      obtain ⟨e, he, hne⟩ :=
        Text.asciiQuotation.head?_char c (Text.asciiQuotation.chars cs' ++ '"' :: rest)
      rw [hc, Text.Quotation.chars_cons, List.append_assoc] at heq
      rw [heq] at he
      exact absurd (Option.some.inj he).symm hne
  case h_2 =>
    rw [hscan]
    simp [Text.assemble_pieces]

theorem spells_string (text : String) :
    Spells (Text.asciiQuotation.quote text) [.string text] := by
  refine lexes_of_scanToken (c := '"') (Text.Quotation.toList_quote _ _) rfl (by decide)
    fun rest hr => ?_
  have hs := scanString_chars text hr.2
  rw [← List.singleton_append (l := rest), ← List.append_assoc] at hs
  exact hs

/-- Texts one after the other, each of which spells its part of the tokens. -/
inductive SpellsAll : List String → List Token → Prop
  | nil : SpellsAll [] []
  | cons {x : String} {ts : List Token} {xs : List String} {us : List Token} :
    Spells x ts → SpellsAll xs us → SpellsAll (x :: xs) (ts ++ us)

theorem SpellsAll.singleton {x : String} {ts : List Token} (h : Spells x ts) :
    SpellsAll [x] ts := by
  have hs := SpellsAll.cons h .nil
  rwa [List.append_nil] at hs

theorem SpellsAll.append {xs ys : List String} {ts us : List Token} (hx : SpellsAll xs ts)
    (hy : SpellsAll ys us) : SpellsAll (xs ++ ys) (ts ++ us) := by
  induction hx with
  | nil => exact hy
  | cons hx _ ih =>
    rw [List.append_assoc]
    exact .cons hx ih

/-- Between texts stands something that separates and means nothing. -/
theorem SpellsAll.intercalate {sep : String} (hs : Firm sep []) (ho : Opens sep)
    {xs : List String} {ts : List Token} (h : SpellsAll xs ts) :
    Spells (sep.intercalate xs) ts := by
  induction h with
  | nil => exact Lexes.nil _
  | @cons x ts xs us hx hxs ih =>
    cases xs with
    | nil =>
      cases hxs
      rwa [String.intercalate_singleton, List.append_nil]
    | cons y ys =>
      rw [String.intercalate_cons_cons]
      have hjoined := Spells.append hx (Firm.append hs ih) (ho.append _)
      rwa [← String.append_assoc] at hjoined

end Grammar
end QueryDocument
