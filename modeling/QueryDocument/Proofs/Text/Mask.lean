import QueryDocument.Proofs.Text.Literal

/-!
A text apart from what stands inside its string literals. The scan goes from left to right: a
literal begins at a quote and ends at the next quote that no backslash escapes. `Weaves` says what a
piece of text adds to a scan that it finds and leaves outside of literals, so that texts can be put
together.
-/
namespace QueryDocument.Text

/-- Where a scan stands. -/
inductive Place where
  | outside
  | inside
  | escaped

/-- Puts a character at the head of the literal that the scan is in. -/
def extend (c : Char) : List (List Char) → List (List Char)
  | [] => [[c]]
  | l :: ls => (c :: l) :: ls

/-- The text with nothing between the quotes of its literals, and what stood between them. A literal
that nothing closes goes up to the end. -/
def sift : Place → List Char → List Char × List (List Char)
  | .outside, [] => ([], [])
  | .outside, c :: cs =>
    let r := sift (if c = '"' then .inside else .outside) cs
    (c :: r.1, r.2)
  | .inside, [] => ([], [[]])
  | .inside, c :: cs =>
    if c = '"' then
      let r := sift .outside cs
      (c :: r.1, [] :: r.2)
    else
      let r := sift (if c = '\\' then .escaped else .inside) cs
      (r.1, extend c r.2)
  | .escaped, [] => ([], [[]])
  | .escaped, c :: cs =>
    let r := sift .inside cs
    (r.1, extend c r.2)

/-- The text with every string literal emptied. -/
def mask (text : String) : String := String.ofList (sift .outside text.toList).1

/-- The insides of the string literals, in order. -/
def literals (text : String) : List (List Char) := (sift .outside text.toList).2

/-- The text that the inside of a literal stands for, where the characters of `raw` may stand for
themselves. -/
def readInside (raw : Char → Bool) (cs : List Char) : Option String := do
  let (ps, rest) ← scanWith raw (cs ++ ['"'])
  if rest.isEmpty then String.ofList <$> assemble ps else none

example : mask "a(b: \"\\\"c\") \"d\"" = "a(b: \"\") \"\"" := by decide +kernel

theorem foldr_extend (cs l : List Char) (ls : List (List Char)) :
    cs.foldr extend (l :: ls) = (cs ++ l) :: ls := by
  induction cs with
  | nil => rfl
  | cons c cs ih =>
    rw [List.foldr_cons, ih]
    rfl

/-- An enclosed text is what stands inside, and the scan is still inside behind it. -/
theorem Enclosed.sift {cs : List Char} (h : Enclosed cs) (rest : List Char) :
    sift .inside (cs ++ rest) =
      ((sift .inside rest).1, cs.foldr extend (sift .inside rest).2) := by
  induction h with
  | nil => rfl
  | raw hq hb _ ih => simp [Text.sift, hq, hb, ih]
  | escape e _ ih => simp [Text.sift, ih]

variable {q : Quotation} {raw : Char → Bool}

/-- The inside of a literal stands for the text that was quoted. -/
theorem Quotation.Readable.readInside_chars (h : q.Readable raw) (text : String) :
    readInside raw (q.chars text.toList) = some text := by
  have hscan := scanWith_chars h text.toList []
  simp [readInside, hscan, assemble_pieces]

/-- No quote stands in the text. -/
def Quoteless (text : String) : Prop := '"' ∉ text.toList

instance (text : String) : Decidable (Quoteless text) := inferInstanceAs (Decidable (_ ∉ _))

theorem Quoteless.append {s t : String} (hs : Quoteless s) (ht : Quoteless t) :
    Quoteless (s ++ t) := by
  unfold Quoteless at *
  rw [String.toList_append, List.mem_append]
  exact fun h => h.elim hs ht

/-- The text adds `plain` to what stands outside of literals, and literals of the given strings. -/
def Weaves (text plain : String) (strings : List String) : Prop :=
  ∀ rest, sift .outside (text.toList ++ rest) =
    (plain.toList ++ (sift .outside rest).1,
      strings.map (fun s => asciiQuotation.chars s.toList) ++ (sift .outside rest).2)

namespace Weaves

/-- A text without quotes has no literals. -/
theorem ofQuoteless {text : String} (h : Quoteless text) : Weaves text text [] := by
  intro rest
  have hsift : ∀ cs : List Char, '"' ∉ cs →
      sift .outside (cs ++ rest) = (cs ++ (sift .outside rest).1, (sift .outside rest).2) := by
    intro cs hcs
    induction cs with
    | nil => rfl
    | cons c cs ih =>
      rw [List.mem_cons, not_or] at hcs
      rw [List.cons_append, sift, if_neg (Ne.symm hcs.1), ih hcs.2]
      rfl
  exact hsift _ h

/-- A literal is masked to an empty one, and its text is the only one found. -/
theorem quote (text : String) :
    Weaves (asciiQuotation.quote text) (asciiQuotation.quote "") [text] := by
  intro rest
  have henclosed := asciiQuotation_readable_all.enclosed_chars text.toList
  have hinner := henclosed.sift ('"' :: rest)
  have hopen : sift .outside ('"' :: (asciiQuotation.chars text.toList ++ '"' :: rest)) =
      ('"' :: (sift .inside ('"' :: rest)).1,
        (asciiQuotation.chars text.toList).foldr extend (sift .inside ('"' :: rest)).2) := by
    rw [sift, if_pos rfl, hinner]
  have hclose : sift .inside ('"' :: rest) =
      ('"' :: (sift .outside rest).1, [] :: (sift .outside rest).2) := by
    rw [sift, if_pos rfl]
  rw [hclose, foldr_extend, List.append_nil] at hopen
  rw [Quotation.toList_quote, List.cons_append, List.cons_append, List.append_assoc]
  exact hopen

theorem append {s s' t t' : String} {ss ts : List String} (hs : Weaves s s' ss)
    (ht : Weaves t t' ts) : Weaves (s ++ t) (s' ++ t') (ss ++ ts) := by
  intro rest
  rw [String.toList_append, List.append_assoc, hs, ht, String.toList_append, List.map_append,
    List.append_assoc, List.append_assoc]

theorem mask {t t' : String} {ss : List String} (h : Weaves t t' ss) : mask t = t' := by
  have hsift := h []
  rw [List.append_nil] at hsift
  simp [Text.mask, hsift, sift]

/-- The insides are found as they were written, one for each string. -/
theorem literals {t t' : String} {ss : List String} (h : Weaves t t' ss) :
    literals t = ss.map fun s => asciiQuotation.chars s.toList := by
  have hsift := h []
  rw [List.append_nil] at hsift
  simp [Text.literals, hsift, sift]

end Weaves

end QueryDocument.Text
