import QueryDocument.Proofs.Binary64.Text
import QueryDocument.Proofs.Decimal.Written
import QueryDocument.Proofs.Render.Nested
import QueryDocument.Proofs.Render.Places
import QueryDocument.Proofs.Text.Literal

/-!
Line breaks. A string literal escapes them and nothing else in a row can hold one but names and
types, so that the lines of a text are the rows of its layout.
-/
namespace QueryDocument

/-- No line break stands in the text. -/
def Unbroken (text : String) : Prop := '\n' ∉ text.toList

instance (text : String) : Decidable (Unbroken text) := inferInstanceAs (Decidable (_ ∉ _))

namespace Unbroken

variable {s t sep : String}

theorem append (hs : Unbroken s) (ht : Unbroken t) : Unbroken (s ++ t) := by
  unfold Unbroken
  rw [String.toList_append]
  exact List.not_mem_append hs ht

/-- A separator may only break the lines if it does so itself. -/
theorem intercalate (hsep : Unbroken sep) {ts : List String} (h : ∀ t ∈ ts, Unbroken t) :
    Unbroken (sep.intercalate ts) := by
  induction ts with
  | nil =>
    rw [String.intercalate_nil]
    decide
  | cons t ts ih =>
    rw [List.forall_mem_cons] at h
    cases ts with
    | nil =>
      rw [String.intercalate_singleton]
      exact h.1
    | cons next ts =>
      rw [String.intercalate_cons_cons]
      exact (h.1.append hsep).append (ih h.2)

theorem between {left right : String} (hl : Unbroken left) (hr : Unbroken right)
    (h : Unbroken t) : Unbroken (left ++ t ++ right) := (hl.append h).append hr

end Unbroken

namespace Text

/-- A quotation writes a line break by an escape. -/
theorem newline_notMem_char {q : Quotation} {raw : Char → Bool} (h : q.Readable raw) (c : Char) :
    '\n' ∉ q.char c := by
  have hdigit (n : Nat) : '\n' ≠ q.digit (n % 16) := fun hd => by
    have hvalue := h.digits (n % 16) (Nat.mod_lt n (by decide))
    rw [← hd] at hvalue
    cases hvalue
  unfold Quotation.char
  split
  case h_1 e he =>
    have hname : '\n' ≠ e := fun hn => by
      have hescape := (shortEscape?_of_shortName? he).1
      rw [← hn] at hescape
      cases hescape
    simp [hname]
  case h_2 hn =>
    split
    · have hne : c ≠ '\n' := ne_of_shortName?_eq_none hn rfl
      exact fun h => hne (List.mem_singleton.1 h).symm
    · simp [Quotation.unit, hex4, hdigit]

/-- A string is on one line, whatever line breaks it has. -/
theorem quote_unbroken (text : String) : Unbroken (asciiQuotation.quote text) := by
  have hread : asciiQuotation.Readable fun _ => true := asciiQuotation_readable _ fun _ _ _ => rfl
  have hchars : '\n' ∉ asciiQuotation.chars text.toList := fun h => by
    obtain ⟨c, -, hc⟩ := List.mem_flatMap.1 h
    exact newline_notMem_char hread c hc
  simp [Unbroken, hchars]

end Text

/-- No line break stands in one of the names and types. -/
abbrev UnbrokenAll (ps : List (NamePlace × String)) : Prop := ∀ p ∈ ps, Unbroken p.2

theorem UnbrokenAll.of_flatMap {α : Type} {places : α → List (NamePlace × String)} {xs : List α}
    (h : UnbrokenAll (xs.flatMap places)) {x : α} (hx : x ∈ xs) : UnbrokenAll (places x) :=
  fun p hp => h p (List.mem_flatMap.2 ⟨x, hx, hp⟩)

namespace Value

mutual
/-- In a value only the names could break a line, for the strings are quoted. -/
theorem render_unbroken {c : Bool} : (v : Value) → UnbrokenAll v.places → {text : String} →
    v.render c = .ok text → Unbroken text
  | .bool b, _, _, h => by
    cases h
    cases b <;> decide
  | .enum name, hp, _, h => by
    rw [render] at h
    split at h
    · cases h
    · cases h
      exact hp _ List.mem_cons_self
  | .float x, _, _, h => by
    rw [render] at h
    split at h
    · rename_i hf
      cases h
      refine (Binary64.numeral_literal hf).notMem_toList ?_ (by decide) (by decide)
      rw [Binary64.text, String.toList_ofList, Binary64.chars_eq_numeral_chars hf]
    · cases h
  | .int n, _, _, h => by
    cases h
    exact (Numeral.ofInt_literal _).notMem_toList (Numeral.toList_toString_eq_chars _)
      (by decide) (by decide)
  | .list items, hp, _, h => by
    obtain ⟨texts, htexts, h⟩ := Outcome.bind_eq_ok.1 h
    cases h
    exact .between (by decide) (by decide)
      (.intercalate (by decide) (renderItems_unbroken items hp htexts))
  | .null, _, _, h => by
    cases h
    decide
  | .object fields, hp, _, h => by
    obtain ⟨texts, htexts, h⟩ := Outcome.bind_eq_ok.1 h
    cases h
    exact .between (by decide) (by decide)
      (.intercalate (by decide) (renderFields_unbroken fields hp htexts))
  | .string text, _, _, h => by
    cases h
    exact Text.quote_unbroken text
  | .var name, hp, _, h => by
    rw [render] at h
    split at h
    · cases h
    · split at h
      · cases h
      · cases h
        exact .append (by decide) (hp _ List.mem_cons_self)

theorem renderItems_unbroken {c : Bool} : (vs : List Value) → UnbrokenAll (placesOfItems vs) →
    {texts : List String} → renderItems c vs = .ok texts → ∀ text ∈ texts, Unbroken text
  | [], _, _, h => by
    cases h
    nofun
  | v :: vs, hp, _, h => by
    obtain ⟨hv, hvs⟩ := List.forall_mem_append.1 hp
    obtain ⟨text, htext, h⟩ := Outcome.bind_eq_ok.1 h
    obtain ⟨texts, htexts, h⟩ := Outcome.bind_eq_ok.1 h
    cases h
    exact List.forall_mem_cons.2 ⟨render_unbroken v hv htext, renderItems_unbroken vs hvs htexts⟩

/-- The names stand as arguments or as the keys of an object, which is all the place tells. -/
theorem renderFields_unbroken {c : Bool} {p : NamePlace} : (fs : List (String × Value)) →
    UnbrokenAll (placesOfFields p fs) → {texts : List String} →
      renderFields c fs = .ok texts → ∀ text ∈ texts, Unbroken text
  | [], _, _, h => by
    cases h
    nofun
  | (k, v) :: fs, hp, _, h => by
    obtain ⟨hk, hp⟩ := List.forall_mem_cons.1 hp
    obtain ⟨hv, hfs⟩ := List.forall_mem_append.1 hp
    obtain ⟨text, htext, h⟩ := Outcome.bind_eq_ok.1 h
    obtain ⟨texts, htexts, h⟩ := Outcome.bind_eq_ok.1 h
    cases h
    refine List.forall_mem_cons.2 ⟨?_, renderFields_unbroken fs hfs htexts⟩
    exact (Unbroken.append hk (by decide)).append (render_unbroken v hv htext)
end

end Value

theorem renderArguments_unbroken {c : Bool} {args : Arguments} {text : String}
    (hp : UnbrokenAll (Value.placesOfFields .argument args))
    (h : renderArguments c args = .ok text) : Unbroken text := by
  cases args with
  | nil =>
    cases h
    decide
  | cons a args =>
    obtain ⟨texts, htexts, h⟩ := Outcome.bind_eq_ok.1 h
    cases h
    exact .between (by decide) (by decide)
      (.intercalate (by decide) (Value.renderFields_unbroken _ hp htexts))

theorem Directive.name_unbroken {d : Directive} (hp : UnbrokenAll d.places) : Unbroken d.name := by
  have hname := hp _ List.mem_cons_self
  unfold Unbroken at hname ⊢
  rw [String.toList_ofList] at hname
  rw [← List.takeWhile_append_dropWhile (p := (· == '@')) (l := d.name.toList), List.mem_append]
  rintro (h | h)
  · cases List.mem_takeWhile_imp h
  · exact hname h

/-- A directive is on one line when its name and the names in its arguments are. -/
theorem Directive.render_unbroken {c : Bool} {d : Directive} (hp : UnbrokenAll d.places)
    {text : String} (h : d.render c = .ok text) : Unbroken text := by
  obtain ⟨args, hargs, h⟩ := Outcome.bind_eq_ok.1 h
  cases h
  have hsign : Unbroken (if d.name.toList.head? = some '@' then "" else "@") := by
    split <;> decide
  exact (hsign.append (name_unbroken hp)).append
    (renderArguments_unbroken (List.forall_mem_cons.1 hp).2 hargs)

theorem renderDirectives_unbroken {c : Bool} {ds : List Directive}
    (hp : UnbrokenAll (ds.flatMap Directive.places)) {text : Option String}
    (h : renderDirectives c ds = .ok text) : ∀ t ∈ text.toList, Unbroken t := by
  cases ds with
  | nil =>
    cases h
    nofun
  | cons d ds =>
    obtain ⟨texts, htexts, h⟩ := Outcome.bind_eq_ok.1 h
    cases h
    refine List.forall_mem_singleton.2 (.intercalate (by decide) ?_)
    exact Outcome.forall_of_mapM
      (fun d hd _ => Directive.render_unbroken (UnbrokenAll.of_flatMap hp hd)) htexts

theorem renderDefault_unbroken {default : Option Value}
    (hp : UnbrokenAll (default.toList.flatMap Value.places)) {texts : List String}
    (h : renderDefault default = .ok texts) : ∀ t ∈ texts, Unbroken t := by
  cases default with
  | none =>
    cases h
    nofun
  | some v =>
    obtain ⟨text, htext, h⟩ := Outcome.bind_eq_ok.1 h
    cases h
    have hv : UnbrokenAll v.places := UnbrokenAll.of_flatMap hp (Option.mem_toList.2 rfl)
    exact List.forall_mem_singleton.2 (.append (by decide) (Value.render_unbroken v hv htext))

/-- The type is written out as it was given, so it counts among the names here. -/
theorem VariableDefinition.render_unbroken {name : String} {d : VariableDefinition}
    (hp : UnbrokenAll (d.places name)) {text : String} (h : d.render name = .ok text) :
    Unbroken text := by
  obtain ⟨hname, hp⟩ := List.forall_mem_cons.1 hp
  obtain ⟨htype, hp⟩ := List.forall_mem_cons.1 hp
  obtain ⟨hdefault, hds⟩ := List.forall_mem_append.1 hp
  obtain ⟨default, hdef, h⟩ := Outcome.bind_eq_ok.1 h
  obtain ⟨directives, hdirectives, h⟩ := Outcome.bind_eq_ok.1 h
  cases h
  refine .intercalate (by decide) (List.forall_mem_append.2 ⟨List.forall_mem_append.2 ⟨?_, ?_⟩, ?_⟩)
  · have hkey : Unbroken ("$" ++ name ++ ":") := .between (by decide) (by decide) hname
    exact List.forall_mem_cons.2 ⟨hkey, List.forall_mem_singleton.2 htype⟩
  · exact renderDefault_unbroken hdefault hdef
  · exact renderDirectives_unbroken hds hdirectives

theorem renderVariables_unbroken {ds : Keyed VariableDefinition}
    (hp : UnbrokenAll (ds.flatMap fun d => d.2.places d.1)) {text : Option String}
    (h : renderVariables ds = .ok text) : ∀ t ∈ text.toList, Unbroken t := by
  cases ds with
  | nil =>
    cases h
    nofun
  | cons d ds =>
    obtain ⟨texts, htexts, h⟩ := Outcome.bind_eq_ok.1 h
    cases h
    refine List.forall_mem_singleton.2
      (.between (by decide) (by decide) (.intercalate (by decide) ?_))
    exact Outcome.forall_of_mapM
      (fun d hd _ => VariableDefinition.render_unbroken (UnbrokenAll.of_flatMap hp hd)) htexts

theorem FragmentSpread.signature_unbroken {s : FragmentSpread} (hp : UnbrokenAll s.places)
    {text : String} (h : s.signature = .ok text) : Unbroken text := by
  obtain ⟨hname, hds⟩ := List.forall_mem_cons.1 hp
  obtain ⟨directives, hdirectives, h⟩ := Outcome.bind_eq_ok.1 h
  cases h
  exact .intercalate (by decide) (List.forall_mem_cons.2
    ⟨.append (by decide) hname, renderDirectives_unbroken hds hdirectives⟩)

/-- The label, the name, the arguments and the directives of a field are all that its line
has. -/
theorem Field.signature_unbroken {f : Field} (hp : UnbrokenAll f.places) {text : String}
    (h : f.signature = .ok text) : Unbroken text := by
  obtain ⟨name, label, arguments, ds, ss⟩ := f
  rw [Field.places] at hp
  obtain ⟨hlabel, hp⟩ := List.forall_mem_append.1 hp
  obtain ⟨hname, hp⟩ := List.forall_mem_cons.1 hp
  obtain ⟨hp, -⟩ := List.forall_mem_append.1 hp
  obtain ⟨harguments, hds⟩ := List.forall_mem_append.1 hp
  obtain ⟨args, hargs, h⟩ := Outcome.bind_eq_ok.1 h
  obtain ⟨directives, hdirectives, h⟩ := Outcome.bind_eq_ok.1 h
  cases h
  refine .intercalate (by decide) (List.forall_mem_cons.2
    ⟨.append (.append ?_ hname) (renderArguments_unbroken harguments hargs),
      renderDirectives_unbroken hds hdirectives⟩)
  cases label with
  | none => exact (by decide : Unbroken "")
  | some label => exact .append (hlabel _ List.mem_cons_self) (by decide)

theorem InlineFragment.signature_unbroken {f : InlineFragment} (hp : UnbrokenAll f.places)
    {text : String} (h : f.signature = .ok text) : Unbroken text := by
  obtain ⟨type, ds, ss⟩ := f
  rw [InlineFragment.places] at hp
  obtain ⟨hp, -⟩ := List.forall_mem_append.1 hp
  obtain ⟨htype, hds⟩ := List.forall_mem_append.1 hp
  obtain ⟨directives, hdirectives, h⟩ := Outcome.bind_eq_ok.1 h
  cases h
  refine .intercalate (by decide) (List.forall_mem_append.2
    ⟨List.forall_mem_cons.2 ⟨by decide, ?_⟩, renderDirectives_unbroken hds hdirectives⟩)
  cases type with
  | none => exact List.forall_mem_nil _
  | some type =>
    exact List.forall_mem_singleton.2 (.append (by decide) (htype _ List.mem_cons_self))

theorem FragmentDefinition.signature_unbroken {f : FragmentDefinition} (hp : UnbrokenAll f.places)
    {text : String} (h : f.signature = .ok text) : Unbroken text := by
  obtain ⟨hname, hp⟩ := List.forall_mem_cons.1 hp
  obtain ⟨htype, hp⟩ := List.forall_mem_cons.1 hp
  obtain ⟨hds, -⟩ := List.forall_mem_append.1 hp
  obtain ⟨directives, hdirectives, h⟩ := Outcome.bind_eq_ok.1 h
  cases h
  have hfragment : Unbroken ("fragment " ++ f.name) := .append (by decide) hname
  have hon : Unbroken ("on " ++ f.typeCondition) := .append (by decide) htype
  exact .intercalate (by decide) (List.forall_mem_cons.2
    ⟨hfragment, List.forall_mem_cons.2 ⟨hon, renderDirectives_unbroken hds hdirectives⟩⟩)

/-- Of the keyword, the name and the variables only the last two come from the caller. -/
theorem Operation.titleParts_unbroken {name declared : Option String}
    (hn : ∀ t ∈ name.toList, Unbroken t) (hd : ∀ t ∈ declared.toList, Unbroken t) :
    ∀ t ∈ titleParts name declared, Unbroken t := by
  have hgetD (text : Option String) (h : ∀ t ∈ text.toList, Unbroken t) :
      Unbroken (text.getD "") := by
    cases text with
    | none => exact (by decide : Unbroken "")
    | some t => exact h t List.mem_cons_self
  unfold titleParts
  split
  · nofun
  · exact List.forall_mem_singleton.2 ((hgetD name hn).append (hgetD declared hd))

theorem Operation.signature_unbroken {o : Operation} (hp : UnbrokenAll o.places)
    {text : String} (h : o.signature = .ok (some text)) : Unbroken text := by
  obtain ⟨hp, -⟩ := List.forall_mem_append.1 hp
  obtain ⟨hp, hds⟩ := List.forall_mem_append.1 hp
  obtain ⟨hname, hvars⟩ := List.forall_mem_append.1 hp
  obtain ⟨declared, hdeclared, h⟩ := Outcome.bind_eq_ok.1 h
  obtain ⟨directives, hdirectives, h⟩ := Outcome.bind_eq_ok.1 h
  have hkind : Unbroken o.kind.keyword := by cases o.kind <;> decide
  have htitle : ∀ t ∈ titleParts o.name declared, Unbroken t :=
    titleParts_unbroken (fun t ht => hname _ (List.mem_map_of_mem ht))
      (renderVariables_unbroken hvars hdeclared)
  split at h
  · cases h
  · cases h
    exact .intercalate (by decide) (List.forall_mem_append.2
      ⟨List.forall_mem_cons.2 ⟨hkind, htitle⟩, renderDirectives_unbroken hds hdirectives⟩)

/-- No row holds a line break. -/
abbrev Row.UnbrokenAll (rows : List Row) : Prop := ∀ r ∈ rows, Unbroken r.text

mutual
/-- Every row of a selection is one line. The braces always are. -/
theorem Selection.Laid.unbroken {depth : Nat} {s : Selection} {rows : List Row} :
    s.Laid depth rows → UnbrokenAll s.places → Row.UnbrokenAll rows
  | .leaf _ h, hp => List.forall_mem_singleton.2 (Field.signature_unbroken hp h)
  | .field (f := f) _ h hb, hp => by
    refine List.forall_mem_cons.2 ⟨Field.signature_unbroken hp h, hb.unbroken ?_⟩
    obtain ⟨name, label, arguments, ds, ss⟩ := f
    rw [Selection.places, Field.places] at hp
    exact (List.forall_mem_append.1
      (List.forall_mem_cons.1 (List.forall_mem_append.1 hp).2).2).2
  | .spread h, hp => List.forall_mem_singleton.2 (FragmentSpread.signature_unbroken hp h)
  | .inlineFragment (f := f) h hb, hp => by
    refine List.forall_mem_cons.2 ⟨InlineFragment.signature_unbroken hp h, hb.unbroken ?_⟩
    obtain ⟨type, ds, ss⟩ := f
    rw [Selection.places, InlineFragment.places] at hp
    exact (List.forall_mem_append.1 hp).2

theorem Selection.LaidBlock.unbroken {depth : Nat} {ss : List Selection} {rows : List Row} :
    Selection.LaidBlock depth ss rows → UnbrokenAll (Selection.placesOfAll ss) →
      Row.UnbrokenAll rows
  | .braces h, hp => by
    refine List.forall_mem_cons.2 ⟨?_, List.forall_mem_append.2 ⟨h.unbroken hp, ?_⟩⟩
    · exact (by decide : Unbroken "\x7b")
    · exact List.forall_mem_singleton.2 (by decide : Unbroken "\x7d")

theorem Selection.LaidAll.unbroken {depth : Nat} {ss : List Selection} {rows : List Row} :
    Selection.LaidAll depth ss rows → UnbrokenAll (Selection.placesOfAll ss) →
      Row.UnbrokenAll rows
  | .nil _, _ => nofun
  | .cons h hs, hp => by
    obtain ⟨hfirst, hrest⟩ := List.forall_mem_append.1 hp
    exact List.forall_mem_append.2 ⟨h.unbroken hfirst, hs.unbroken hrest⟩
end

theorem Definition.Laid.unbroken {d : Definition} {rows : List Row} (h : d.Laid rows)
    (hp : UnbrokenAll d.places) : Row.UnbrokenAll rows := by
  cases h with
  | @fragment f _ _ h hb =>
    have hss := (List.forall_mem_append.1
      (List.forall_mem_cons.1 (List.forall_mem_cons.1 hp).2).2).2
    exact List.forall_mem_cons.2 ⟨FragmentDefinition.signature_unbroken hp h, hb.unbroken hss⟩
  | @operation o _ _ h hb =>
    exact List.forall_mem_cons.2
      ⟨Operation.signature_unbroken hp h, hb.unbroken (List.forall_mem_append.1 hp).2⟩
  | shorthand _ hb => exact hb.unbroken (List.forall_mem_append.1 hp).2

/-- Taken as a node of its own, a definition has the same names. -/
theorem Definition.places_of_node {d : Definition} {n : Node} (h : d.node = .ok n) :
    n.places = d.places := by
  cases d <;> cases h <;> rfl

theorem Selection.places_of_node {s : Selection} {n : Node} (h : s.node = .ok n) :
    n.places = s.places := by
  cases s <;> cases h <;> rfl

/-- Every row of a node is one line. -/
theorem Node.Laid.unbroken {n : Node} {groups : List (List Row)} (h : n.Laid groups)
    (hp : UnbrokenAll n.places) : ∀ rows ∈ groups, Row.UnbrokenAll rows := by
  refine h.forall_groups ?_ ?_ ?_
  · rintro doc rfl d hd rows hrows
    exact hrows.unbroken (UnbrokenAll.of_flatMap hp hd)
  · intro d hd rows hrows
    exact hrows.unbroken (Definition.places_of_node hd ▸ hp)
  · intro s hs rows hrows
    exact hrows.unbroken (Selection.places_of_node hs ▸ hp)

namespace Formatter

variable {f : Formatter} {level : Nat}

/-- An indentation without line breaks keeps a row on its line, and an empty row has none. -/
theorem row_unbroken (hf : Unbroken f.indentUnit) {r : Option Row}
    (h : ∀ r' ∈ r, Unbroken r'.text) : Unbroken (f.row level r) := by
  cases r with
  | none => exact (by decide : Unbroken "")
  | some r => exact Unbroken.append (notMem_indent hf _) (h r rfl)

/-- Splitting at the line breaks gives the rows back, the empty ones among them, so none is lost
and none is added. -/
theorem splitOn_textOf (hf : Unbroken f.indentUnit) {groups : List (List Row)}
    (h : ∀ rows ∈ groups, Row.UnbrokenAll rows) (hne : Row.spaced groups ≠ []) :
    (f.textOf level groups).toList.splitOn '\n' =
      (Row.spaced groups).map fun r => (f.row level r).toList := by
  have hrows : ∀ line ∈ (Row.spaced groups).map fun r => (f.row level r).toList, '\n' ∉ line := by
    intro line hline
    obtain ⟨r, hr, rfl⟩ := List.mem_map.1 hline
    refine row_unbroken hf fun r' hr' => ?_
    rw [Option.mem_def] at hr'
    rw [hr'] at hr
    obtain ⟨rows, hrows, hmem⟩ := Row.mem_spaced hr
    exact h rows hrows r' hmem
  rw [textOf, String.toList_intercalate, List.map_map]
  exact List.splitOn_intercalate '\n' hrows (by simpa using hne)

/-- What is rendered has a layout, with braces that pair up, and has its text by this layout under
every formatter and at every level; the texts of its parts, one level deeper within braces, make the
same text. Without line breaks in the indent unit, the names and the types, the lines of the text
are the rows of the layout. -/
theorem format_layout {n : Node} {f : Formatter} {level : Nat} {text : String}
    (h : f.format level n = .ok text) :
    ∃ groups, n.Laid groups ∧ (∀ rows ∈ groups, Row.Paired 0 rows) ∧
      ∀ (f : Formatter) (level : Nat), f.format level n = .ok (f.textOf level groups) ∧
        f.assembled level n = .ok (f.textOf level groups) ∧
        (Unbroken f.indentUnit → (∀ p ∈ n.places, Unbroken p.2) → groups ≠ [] →
          (f.textOf level groups).toList.splitOn '\n' =
            (Row.spaced groups).map fun r => (f.row level r).toList) := by
  obtain ⟨lss, hlss, -⟩ := Outcome.bind_eq_ok.1 h
  obtain ⟨groups, hlaid⟩ := Node.laid hlss
  refine ⟨groups, hlaid, hlaid.paired, fun f level => ?_⟩
  have hformat := f.format_of_laid level hlaid
  refine ⟨hformat, (f.format_eq_assembled level n).symm.trans hformat, fun hf hp hne => ?_⟩
  refine splitOn_textOf hf (hlaid.unbroken hp) ?_
  cases groups with
  | nil => exact absurd rfl hne
  | cons rows groups => exact Row.spaced_ne_nil (hlaid.ne_nil rows List.mem_cons_self) groups

/-- A query and a fragment. -/
def twofold : Document :=
  ⟨[.operation
      { kind := .query
        selections := [.field { name := "a", selections := [.spread { name := "b" }] }] },
    .fragment
      { name := "b"
        typeCondition := "T"
        selections := [.inlineFragment { selections := [.field { name := "c" }] }] }]⟩

theorem format_layout_of_twofold :
    (∃ text, format {} 0 (.document twofold) = .ok text) ∧
      ∃ groups, (Node.document twofold).Laid groups ∧ (∀ rows ∈ groups, Row.Paired 0 rows) ∧
        format ⟨"\t"⟩ 2 (.document twofold) = .ok (textOf ⟨"\t"⟩ 2 groups) ∧
        assembled ⟨"\t"⟩ 2 (.document twofold) = .ok (textOf ⟨"\t"⟩ 2 groups) ∧
        (textOf ⟨"\t"⟩ 2 groups).toList.splitOn '\n' =
          (Row.spaced groups).map fun r => (row ⟨"\t"⟩ 2 r).toList := by
  have htext : ∃ text, format {} 0 (.document twofold) = .ok text := ⟨_, rfl⟩
  obtain ⟨text, h⟩ := htext
  obtain ⟨groups, hlaid, hpaired, hall⟩ := format_layout h
  have hne : groups ≠ [] := by
    rintro rfl
    cases hlaid with
    | document hlaid => cases hlaid
  have hnames : ∀ p ∈ (Node.document twofold).places, Unbroken p.2 := by decide
  obtain ⟨hformat, hassembled, hlines⟩ := hall ⟨"\t"⟩ 2
  exact ⟨⟨text, h⟩, groups, hlaid, hpaired, hformat, hassembled, hlines (by decide) hnames hne⟩

end Formatter
end QueryDocument
