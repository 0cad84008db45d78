import Mathlib.Data.List.Forall2
import QueryDocument.Proofs.Grammar.Spelling

/-!
Quotation in printable ASCII. `Written` lists the ways to write a character, which both the grammar
of the query language and that of the interchange format read as this character; a quoted text is
its characters, each in such a way, between two quotes. The literal ends at the first quote that is
not escaped, so that no quoted text is the beginning of another.
-/
namespace QueryDocument.Text

/-- The characters from the space to the tilde. -/
def Printable (c : Char) : Prop := 0x20 ≤ c.toNat ∧ c.toNat ≤ 0x7E

instance (c : Char) : Decidable (Printable c) := inferInstanceAs (Decidable (_ ∧ _))

/-- Above the basic plane a character takes two escapes, a high surrogate and then a low one. -/
inductive Written (c : Char) : List Char → Prop where
  | itself (hc : Printable c) (hq : c ≠ '"') (hb : c ≠ '\\') : Written c [c]
  | short {e} (h : shortEscape? e = some c) : Written c ['\\', e]
  | unit {w x y z} (hc : c.toNat < 0x10000) (h : readHex4 w x y z = some c.toNat) :
      Written c ['\\', 'u', w, x, y, z]
  | pair {high low w x y z w' x' y' z'} (hhigh : isHigh high = true) (hlow : isLow low = true)
      (hc : pair high low = c) (h : readHex4 w x y z = some high)
      (h' : readHex4 w' x' y' z' = some low) :
      Written c ['\\', 'u', w, x, y, z, '\\', 'u', w', x', y', z']

/-- Every character is written in one of the ways that a string allows. -/
theorem written_char (c : Char) : Written c (asciiQuotation.char c) := by
  have hread := asciiQuotation_readable_all
  unfold Quotation.char
  split
  case h_1 e he => exact .short (shortEscape?_of_shortName? he).1
  case h_2 hn =>
    have hq : c ≠ '"' := ne_of_shortName?_eq_none hn rfl
    have hb : c ≠ '\\' := ne_of_shortName?_eq_none hn rfl
    split
    case isTrue hr =>
      simp only [asciiQuotation, Bool.and_eq_true, decide_eq_true_eq] at hr
      exact .itself hr hq hb
    case isFalse =>
      rcases Nat.lt_or_ge c.toNat 0x10000 with h | h
      · rw [units_of_lt h]
        exact .unit h (readHex4_hex4 hread h)
      · have hlt := units_lt c
        obtain ⟨high, low, hu, hhigh, hlow, hc⟩ := units_of_ge h
        rw [hu] at hlt ⊢
        exact .pair hhigh hlow hc (readHex4_hex4 hread (hlt high (by simp)))
          (readHex4_hex4 hread (hlt low (by simp)))

theorem printable_of_between {c low high : Char} (h : low ≤ c ∧ c ≤ high)
    (hlow : 0x20 ≤ low.toNat) (hhigh : high.toNat ≤ 0x7E) : Printable c :=
  ⟨Nat.le_trans hlow (UInt32.le_iff_toNat_le.1 h.1),
    Nat.le_trans (UInt32.le_iff_toNat_le.1 h.2) hhigh⟩

theorem printable_of_hexValue? {c : Char} {n : Nat} (h : hexValue? c = some n) : Printable c := by
  unfold hexValue? at h
  split at h
  · exact printable_of_between ‹_› (by decide) (by decide)
  split at h
  · exact printable_of_between ‹_› (by decide) (by decide)
  split at h
  · exact printable_of_between ‹_› (by decide) (by decide)
  · cases h

theorem printable_unit {w x y z : Char} {n : Nat} {cs : List Char}
    (h : readHex4 w x y z = some n) (hcs : ∀ d ∈ cs, Printable d) :
    ∀ d ∈ '\\' :: 'u' :: w :: x :: y :: z :: cs, Printable d := by
  obtain ⟨a, hw, h⟩ := Option.bind_eq_some_iff.1 h
  obtain ⟨b, hx, h⟩ := Option.bind_eq_some_iff.1 h
  obtain ⟨c, hy, h⟩ := Option.bind_eq_some_iff.1 h
  obtain ⟨d, hz, -⟩ := Option.bind_eq_some_iff.1 h
  simp only [List.forall_mem_cons]
  exact ⟨by decide, by decide, printable_of_hexValue? hw, printable_of_hexValue? hx,
    printable_of_hexValue? hy, printable_of_hexValue? hz, hcs⟩

theorem printable_of_shortEscape? {c e : Char} (h : shortEscape? e = some c) : Printable e := by
  unfold shortEscape? at h
  split at h
  case h_9 => cases h
  all_goals decide

/-- No way of writing a character needs one that is not printable. -/
theorem Written.printable {c : Char} {cs : List Char} (h : Written c cs) :
    ∀ d ∈ cs, Printable d := by
  cases h with
  | itself hc => exact List.forall_mem_singleton.2 hc
  | short h =>
    exact List.forall_mem_cons.2
      ⟨by decide, List.forall_mem_singleton.2 (printable_of_shortEscape? h)⟩
  | unit _ h => exact printable_unit h nofun
  | pair _ _ _ h h' => exact printable_unit h (printable_unit h' nofun)

/-- How many backslashes stand at the end. -/
def backslashes (cs : List Char) : Nat := (cs.reverse.takeWhile (· == '\\')).length

/-- What stands behind the text is escaped: of the backslashes at its end, which escape each other
in pairs, one is left over. -/
def Escapes (before : List Char) : Prop := backslashes before % 2 = 1

instance (before : List Char) : Decidable (Escapes before) := inferInstanceAs (Decidable (_ = _))

theorem backslashes_append_backslash (cs : List Char) :
    backslashes (cs ++ ['\\']) = backslashes cs + 1 := by
  simp [backslashes]

/-- Only the backslashes at the end count. -/
theorem backslashes_append_of_ne {c : Char} (h : c ≠ '\\') (cs : List Char) :
    backslashes (cs ++ [c]) = 0 := by
  simp [backslashes, h]

/-- A literal's inside escapes neither what stands behind it nor leaves a quote in it unescaped. -/
theorem Enclosed.escapes {cs : List Char} (h : Enclosed cs) (before : List Char)
    (hb : ¬ Escapes before) : ¬ Escapes (before ++ cs) ∧
      ∀ inside after, cs = inside ++ '"' :: after → Escapes (before ++ inside) := by
  induction h generalizing before with
  | nil => exact ⟨by rwa [List.append_nil], fun inside after he => by simp at he⟩
  | @raw c cs hq hc _ ih =>
    have hnext : ¬ Escapes (before ++ [c]) := by simp [Escapes, backslashes_append_of_ne hc]
    obtain ⟨hend, hquotes⟩ := ih _ hnext
    rw [List.append_assoc] at hend
    refine ⟨hend, fun inside after he => ?_⟩
    cases inside with
    | nil => exact absurd (List.cons.inj he).1 hq
    | cons d inside =>
      obtain ⟨rfl, htail⟩ := List.cons.inj he
      have hinside := hquotes inside after htail
      rwa [List.append_assoc] at hinside
  | @escape e cs _ ih =>
    -- The backslash makes the count odd, so that `e` is escaped. Behind `e` it is even again: zero,
    -- or one more if `e` is a backslash too.
    have hbackslash : Escapes (before ++ ['\\']) := by
      rw [Escapes, backslashes_append_backslash]
      rw [Escapes] at hb
      omega
    have hnext : ¬ Escapes (before ++ ['\\', e]) := by
      rw [List.append_cons before]
      by_cases he : e = '\\'
      · rw [Escapes] at hbackslash ⊢
        rw [he, backslashes_append_backslash]
        omega
      · rw [Escapes, backslashes_append_of_ne he]
        decide
    obtain ⟨hend, hquotes⟩ := ih _ hnext
    rw [List.append_assoc] at hend
    refine ⟨hend, fun inside after he => ?_⟩
    match inside, he with
    | [], he => exact absurd (List.cons.inj he).1 (by decide)
    | [d], he =>
      obtain ⟨rfl, -⟩ := List.cons.inj he
      exact hbackslash
    | d :: d' :: inside, he =>
      simp only [List.cons_append, List.cons.injEq] at he
      obtain ⟨rfl, rfl, htail⟩ := he
      have hinside := hquotes inside after htail
      rwa [List.append_assoc] at hinside

theorem written_chars (cs : List Char) :
    ∃ parts, List.Forall₂ Written cs parts ∧ asciiQuotation.chars cs = parts.flatten := by
  refine ⟨cs.map asciiQuotation.char, ?_, List.flatMap_def⟩
  rw [List.forall₂_map_right_iff, List.forall₂_same]
  exact fun c _ => written_char c

/-- The quotes themselves are printable, so the whole literal is. -/
theorem printable_quote (text : String) :
    ∀ c ∈ (asciiQuotation.quote text).toList, Printable c := by
  intro c hc
  rw [Quotation.toList_quote, List.cons_append, List.mem_cons, List.mem_append,
    List.mem_singleton] at hc
  rcases hc with rfl | hc | rfl
  · decide
  · obtain ⟨d, -, hd⟩ := List.mem_flatMap.1 hc
    exact (written_char d).printable c hd
  · decide

/-- The reader stops where the first literal ends, which is therefore the whole of the second. -/
theorem quote_prefix_free {s t : String}
    (h : (asciiQuotation.quote s).toList <+: (asciiQuotation.quote t).toList) : s = t := by
  obtain ⟨rest, h⟩ := h
  have hinside : asciiQuotation.chars s.toList ++ '"' :: rest =
      asciiQuotation.chars t.toList ++ ['"'] := by
    simpa using h
  have hs := scanWith_chars asciiQuotation_readable_all s.toList rest
  have ht := scanWith_chars asciiQuotation_readable_all t.toList []
  rw [hinside, ht] at hs
  have hpieces := (Prod.mk.inj (Option.some.inj hs)).1
  have htexts := assemble_pieces (q := asciiQuotation) t.toList
  rw [hpieces, assemble_pieces] at htexts
  exact String.toList_injective (Option.some.inj htexts)

/-- A quoted text is printable ASCII between two quotes, of which the last is the first that is not
escaped. Between them stands each character of the text in one of its ways, and both grammars read
this text from it, whatever follows. No text is quoted like another, and no quoted text begins with
another one. -/
theorem asciiQuotation_exact (text : String) :
    (∀ c ∈ (asciiQuotation.quote text).toList, Printable c) ∧
    (∃ inside, (asciiQuotation.quote text).toList = '"' :: inside ++ ['"'] ∧
      (∀ before after, inside = before ++ '"' :: after → Escapes before) ∧ ¬ Escapes inside ∧
      (∃ parts, List.Forall₂ Written text.toList parts ∧ inside = parts.flatten) ∧
      (∀ rest, ∃ ps, scan (inside ++ '"' :: rest) = some (ps, rest) ∧
        assemble ps = some text.toList) ∧
      ∀ rest, rest.head? ≠ some '"' →
        Grammar.scanString (inside ++ '"' :: rest) = some (.string text, rest)) ∧
    (∀ other, asciiQuotation.quote other = asciiQuotation.quote text ↔ other = text) ∧
    ∀ other, (asciiQuotation.quote other).toList <+: (asciiQuotation.quote text).toList ↔
      other = text := by
  have henclosed := asciiQuotation_readable_all.enclosed_chars text.toList
  have hescapes := henclosed.escapes [] (by decide)
  have hscan := scanWith_chars (asciiQuotation_readable (fun c => decide (0x20 ≤ c.toNat))
    fun c hc _ => decide_eq_true hc) text.toList
  refine ⟨printable_quote text, ⟨asciiQuotation.chars text.toList, Quotation.toList_quote _ _,
    hescapes.2, hescapes.1, written_chars text.toList, fun rest => ?_, fun rest hr => ?_⟩,
    fun other => ⟨fun h => ?_, fun h => h ▸ rfl⟩, fun other => ⟨quote_prefix_free, ?_⟩⟩
  · exact ⟨_, (scan_eq_scanWith _).trans (hscan rest), assemble_pieces text.toList⟩
  · exact Grammar.scanString_chars text hr
  · exact quote_prefix_free (h ▸ List.prefix_refl _)
  · rintro rfl
    exact List.prefix_refl _

/-- Backslashes before a quote and before the letter of an escape, and both ends of each range of
characters that is written alike. -/
theorem asciiQuotation_exact_of_boundary :
    let text := String.ofList ['\\', '"', '\\', 'u', ' ', '~', '\x7f', '\uD7FF', '\uE000', '\uFFFF',
      Char.ofNat 0x10000, Char.ofNat 0x10FFFF]
    let inside := "\\\\\\\"\\\\u ~\\u007F\\uD7FF\\uE000\\uFFFF\\uD800\\uDC00\\uDBFF\\uDFFF"
    asciiQuotation.quote text = "\"" ++ inside ++ "\"" ∧ Escapes ("\\\\\\".toList) ∧
      ¬ Escapes inside.toList ∧
      Grammar.scanString (inside.toList ++ ['"', ')']) = some (.string text, [')']) ∧
      ¬ (asciiQuotation.quote "\\").toList <+: (asciiQuotation.quote text).toList := by
  intro text inside
  have hquote : asciiQuotation.quote text = "\"" ++ inside ++ "\"" := by decide +kernel
  obtain ⟨-, ⟨cs, hcs, hquotes, hend, -, -, hread⟩, -, hbegins⟩ := asciiQuotation_exact text
  have hinside : cs = inside.toList := by
    rw [hquote] at hcs
    simpa using hcs.symm
  subst hinside
  refine ⟨hquote, ?_, hend, ?_, ?_⟩
  · exact hquotes "\\\\\\".toList (inside.toList.drop 4) (by decide +kernel)
  · exact hread [')'] (by decide)
  · rw [hbegins]
    decide +kernel

end QueryDocument.Text
