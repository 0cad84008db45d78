import QueryDocument.Proofs.Json.Acceptance
import QueryDocument.Proofs.Json.RoundTrip
import QueryDocument.Render.Formatter

/-!
Names and the sigils before them. A name may be given with its sigil or without it, and it is
written with as many sigils as it was given with, or with one if it was given with none. A variable
is kept under its name without one of them; a directive keeps its name as it was given.
-/
namespace QueryDocument

/-- How many times the text begins with `c`. -/
def sigils (c : Char) (text : String) : Nat := (text.toList.takeWhile (· == c)).length

def afterSigils (c : Char) (text : String) : List Char := text.toList.dropWhile (· == c)

/-- The text begins with exactly `n` times `c`, and goes on. -/
def Led (c : Char) (n : Nat) (text : String) : Prop :=
  ∃ x cs, text.toList = List.replicate n c ++ x :: cs ∧ x ≠ c

theorem toList_eq_sigils (c : Char) (text : String) :
    text.toList = List.replicate (sigils c text) c ++ afterSigils c text := by
  have htake : text.toList.takeWhile (· == c) = List.replicate (sigils c text) c := by
    refine List.eq_replicate_iff.2 ⟨rfl, fun x hx => ?_⟩
    have hx := List.mem_takeWhile_imp hx
    exact eq_of_beq hx
  rw [← htake, afterSigils, List.takeWhile_append_dropWhile]

theorem ne_of_afterSigils {c x : Char} {text : String} {cs : List Char}
    (h : afterSigils c text = x :: cs) : x ≠ c := by
  have hhead := List.head?_dropWhile_not (· == c) text.toList
  rw [afterSigils] at h
  rw [h] at hhead
  simpa using hhead

/-- One sigil is put before a name that comes without. -/
def withSigil (c : Char) (text : String) : List Char :=
  if text.toList.head? = some c then text.toList else c :: text.toList

/-- There is always at least one sign, and none is added to those that were given. -/
theorem withSigil_eq (c : Char) (text : String) :
    withSigil c text = List.replicate (max 1 (sigils c text)) c ++ afterSigils c text := by
  have htext := toList_eq_sigils c text
  unfold withSigil
  cases hn : sigils c text with
  | zero =>
    rw [hn, List.replicate_zero, List.nil_append] at htext
    have hhead : text.toList.head? ≠ some c := by
      intro hh
      obtain ⟨cs, hcs⟩ := List.head?_eq_some_iff.1 hh
      exact ne_of_afterSigils (htext.symm.trans hcs) rfl
    rw [if_neg hhead, ← htext]
    rfl
  | succ n =>
    rw [hn] at htext
    have hhead : text.toList.head? = some c := by
      rw [htext, List.replicate_succ]
      rfl
    rw [if_pos hhead, Nat.max_eq_right (Nat.le_add_left 1 n), ← htext]

theorem dollar_bareName (text : String) : '$' :: (bareName text).toList = withSigil '$' text := by
  unfold withSigil
  by_cases hh : text.toList.head? = some '$'
  · obtain ⟨cs, hcs⟩ := List.head?_eq_some_iff.1 hh
    have hbare : bareName text = String.ofList cs := by
      rw [bareName, hcs]
      rfl
    rw [if_pos hh, hbare, hcs, String.toList_ofList]
  · rw [if_neg hh, bareName_of_plain hh]

/-- What comes behind the sigils is more of the name, or else what follows the name. -/
theorem led_of_withSigil {c : Char} {text t : String} (more : List Char)
    (ht : t.toList = withSigil c text ++ more)
    (hm : afterSigils c text ≠ [] ∨ ∃ x cs, more = x :: cs ∧ x ≠ c) :
    Led c (max 1 (sigils c text)) t := by
  rw [withSigil_eq, List.append_assoc] at ht
  cases hrest : afterSigils c text with
  | cons x cs =>
    rw [hrest] at ht
    exact ⟨x, cs ++ more, ht, ne_of_afterSigils hrest⟩
  | nil =>
    obtain ⟨x, cs, rfl, hx⟩ := hm.resolve_left fun h => h hrest
    rw [hrest] at ht
    exact ⟨x, cs, ht, hx⟩

/-- The at signs of a directive are followed by another character. -/
theorem Directive.render_led {d : Directive} (hd : Directive.isNamed d.name = true)
    {constant : Bool} {t : String} (ht : d.render constant = .ok t) :
    Led '@' (max 1 (sigils '@' d.name)) t := by
  obtain ⟨args, -, ht⟩ := Outcome.bind_eq_ok.1 ht
  cases ht
  refine led_of_withSigil args.toList ?_ (.inl ((isNamed_iff d.name).1 hd))
  unfold withSigil
  split <;> simp

/-- The dollar signs of a declared variable are followed by another character, whether the name
was given with any or not. -/
theorem VariableDefinition.render_led {name : String} {d : VariableDefinition} {t : String}
    (ht : d.render (bareName name) = .ok t) : Led '$' (max 1 (sigils '$' name)) t := by
  obtain ⟨default, -, ht⟩ := Outcome.bind_eq_ok.1 ht
  obtain ⟨directives, -, ht⟩ := Outcome.bind_eq_ok.1 ht
  cases ht
  let rest := " ".intercalate (d.type :: (default ++ directives.toList))
  refine led_of_withSigil (':' :: (" " ++ rest).toList) ?_ (.inr ⟨':', _, rfl, by decide⟩)
  rw [← dollar_bareName, List.append_assoc, List.cons_append, List.cons_append,
    String.intercalate_cons_cons]
  simp [rest]

/-- The variables of an operation are those of the names, each without one sigil. -/
def Operation.Declares (names : List String) (o : Operation) : Prop :=
  ∀ key, key ∈ Keyed.keys o.declared ↔ ∃ name ∈ names, key = bareName name

namespace Operation

theorem addVariable_declared {name : String} {shape : VariableShape} {o o' : Operation}
    (h : addVariable name shape o = .ok () o') :
    ∃ d, o'.declared = Keyed.insert (bareName name) d o.declared := by
  obtain ⟨d, -, hd⟩ :=
    (addVariable_puts name shape).exists_of_success (Change.failure_of_ok h)
  rw [Change.left_of_ok h] at hd
  exact ⟨d, congrArg Operation.declared hd⟩

/-- As far as no declaration fails. -/
theorem addVariables_keys (ds : List (String × VariableShape)) (o : Operation) :
    ∃ done rest, ds = done ++ rest ∧ ((addVariables ds).failure o = none → rest = []) ∧
      ∀ key, key ∈ Keyed.keys ((addVariables ds).left o).declared ↔
        key ∈ Keyed.keys o.declared ∨ ∃ name ∈ done.map Prod.fst, key = bareName name := by
  induction ds generalizing o with
  | nil => exact ⟨[], [], rfl, fun _ => rfl, fun key => (or_iff_left (by simp)).symm⟩
  | cons d ds ih =>
    rw [addVariables_cons, Change.left_andThen, Change.failure_andThen]
    cases hf : (addVariable d.1 d.2).failure o with
    | some e =>
      rw [if_neg nofun, (addVariable_puts d.1 d.2).left_of_failure hf]
      refine ⟨[], d :: ds, rfl, fun hn => ?_, fun key => by simp⟩
      cases hn
    | none =>
      obtain ⟨y, -, ho⟩ := (addVariable_puts d.1 d.2).exists_of_success hf
      rw [if_pos rfl, ho, Option.none_or]
      obtain ⟨done, rest, rfl, hrest, hkeys⟩ := ih (o.insertVariable d.1 y)
      refine ⟨d :: done, rest, rfl, hrest, fun key => ?_⟩
      rw [hkeys, insertVariable, Keyed.mem_keys_insert, List.map_cons, List.exists_mem_cons_iff,
        or_assoc]

/-- Declared by what was read, a map loses one dollar sign from each of its keys. -/
theorem declareAll_declares {ds : Keyed VariableDefinition} {o o' : Operation}
    (ho : o.declared = []) (h : (declareAll ds).made o = .ok o') :
    o'.Declares (Keyed.keys ds) := by
  rw [made_declareAll] at h
  split at h
  · cases h
  · cases h
    intro key
    rw [Keyed.mem_keys_foldl_insert, ho, List.map_map]
    simp [Keyed.keys, eq_comm]

end Operation

/-- The text that a shape names its directive with. -/
def DirectiveShape.name? : DirectiveShape → Option String
  | .name text => some text
  | .call given _ => some given
  | .value v => Directive.nameOf? v
  | .built shape => shape.name?

namespace Directive

/-- However often it was given with it, the directive is written with its at sign. -/
def Sigiled (d : Directive) : Prop :=
  ∀ constant t, d.render constant = .ok t → Led '@' (max 1 (sigils '@' d.name)) t

theorem sigiled_of_withArguments {name : String} {args : Arguments} {d : Directive}
    (h : withArguments name args = .ok d) : d.name = name ∧ d.Sigiled := by
  obtain ⟨rfl, hn, -⟩ := (withArguments_ok_iff name args d).1 h
  exact ⟨rfl, fun _ _ ht => render_led hn ht⟩

/-- From a value of any shape a directive gets the name found there, at signs and all. -/
theorem sigiled_of_ofShape {shape : DirectiveShape} {d : Directive} (h : ofShape shape = .ok d) :
    shape.name? = some d.name ∧ d.Sigiled := by
  induction shape with
  | name text =>
    obtain ⟨hname, hs⟩ := sigiled_of_withArguments h
    exact ⟨congrArg some hname.symm, hs⟩
  | call name args =>
    obtain ⟨hname, hs⟩ := sigiled_of_withArguments h
    exact ⟨congrArg some hname.symm, hs⟩
  | value v =>
    obtain ⟨name, args, hv, hd, -⟩ := withArguments_of_ofValue h
    obtain ⟨hname, hs⟩ := sigiled_of_withArguments hd
    exact ⟨hv.trans (congrArg some hname.symm), hs⟩
  | built shape ih => exact ih h

end Directive

namespace Value

/-- A variable in a value is written with the dollar signs it was given, or with one. -/
theorem toList_render_varNamed {text : String} {constant : Bool} {t : String}
    (h : (varNamed text).render constant = .ok t) : t.toList = withSigil '$' text := by
  rw [varNamed, render] at h
  split at h
  · cases h
  · split at h
    · cases h
    · cases h
      rw [← dollar_bareName, String.toList_append]
      rfl

/-- A text with a dollar sign names the same variable in a tree and in a call. -/
theorem ofTag_eq_varNamed {text : String} (h : text.toList.head? = some '$') :
    ofTag text = varNamed text := by
  obtain ⟨cs, hcs⟩ := List.head?_eq_some_iff.1 h
  rw [ofTag, varNamed, bareName, hcs]
  rfl

end Value

namespace Json

/-- The name is the one that the object or the array holds. -/
theorem read_directive {j : Json} {s : Strictness} {d : Directive}
    (h : j.read s .directive = .ok d) :
    (∃ args, (j.layer s).struct Schema.directive = .ok (args, d.name, ())) ∧ d.Sigiled := by
  rw [read_eq_layer] at h
  obtain ⟨⟨args, name, _⟩, hstruct, h⟩ := Outcome.bind_eq_ok.1 h
  obtain ⟨rfl, hs⟩ := Directive.sigiled_of_withArguments (Outcome.mapError_eq_ok.1 h)
  exact ⟨⟨args, hstruct⟩, hs⟩

/-- The names are those that the object or the array holds. -/
theorem read_operation {j : Json} {s : Strictness} {o : Operation}
    (h : j.read s .operation = .ok o) :
    ∃ ds kind name ss given,
      (j.layer s).struct Schema.operation = .ok (ds, kind, name, ss, given, ()) ∧
        o.Declares (Keyed.keys given) := by
  rw [read_eq_layer] at h
  obtain ⟨⟨ds, kind, name, ss, given, _⟩, hstruct, h⟩ := Outcome.bind_eq_ok.1 h
  obtain ⟨o₁, hnew, h⟩ := Outcome.bind_eq_ok.1 (Outcome.mapError_eq_ok.1 h)
  obtain ⟨o₂, hall, h⟩ := Outcome.bind_eq_ok.1 h
  cases h
  refine ⟨ds, kind, name, ss, given, hstruct, ?_⟩
  have hnone : o₁.declared = [] := by
    unfold Operation.new at hnew
    split at hnew
    · cases hnew
    · cases hnew
      rfl
  exact fun key => Operation.declareAll_declares hnone hall key

end Json

/-- Names are written with the sigils that they were given with, or with one. A directive keeps its
name as it was given, by itself, in a shape or in a document that was read; an operation keeps its
variables without one dollar sign each, whether declared one by one, all at once or read. -/
theorem rendered_sigils :
    (∀ shape d, Directive.ofShape shape = .ok d → shape.name? = some d.name ∧ d.Sigiled) ∧
    (∀ name args d, Directive.withArguments name args = .ok d → d.name = name ∧ d.Sigiled) ∧
    (∀ name d, Directive.new name = .ok d → d.name = name ∧ d.Sigiled) ∧
    (∀ (j : Json) (s : Json.Strictness) d, j.read s .directive = .ok d →
      (∃ args, (j.layer s).struct Json.Schema.directive = .ok (args, d.name, ())) ∧ d.Sigiled) ∧
    (∀ name (d : VariableDefinition) t, d.render (bareName name) = .ok t →
      Led '$' (max 1 (sigils '$' name)) t) ∧
    (∀ name shape o o', Operation.addVariable name shape o = .ok () o' →
      ∃ d, o'.declared = Keyed.insert (bareName name) d o.declared) ∧
    (∀ ds o, ∃ done rest, ds = done ++ rest ∧
      ((Operation.setVariables ds).failure o = none → rest = []) ∧
      ((Operation.setVariables ds).left o).Declares (done.map Prod.fst)) ∧
    (∀ (j : Json) (s : Json.Strictness) o, j.read s .operation = .ok o →
      ∃ ds kind name ss given,
        (j.layer s).struct Json.Schema.operation = .ok (ds, kind, name, ss, given, ()) ∧
          o.Declares (Keyed.keys given)) ∧
    ∀ text v, v = Value.varNamed text ∨ text.toList.head? = some '$' ∧ v = Value.ofTag text →
      ∀ constant t, v.render constant = .ok t →
        (afterSigils '$' text ≠ [] → Led '$' (max 1 (sigils '$' text)) t) ∧
        (afterSigils '$' text = [] → t.toList = List.replicate (max 1 (sigils '$' text)) '$') := by
  refine ⟨fun _ _ => Directive.sigiled_of_ofShape, fun _ _ _ => Directive.sigiled_of_withArguments,
    fun _ _ => Directive.sigiled_of_withArguments, fun _ _ _ => Json.read_directive,
    fun _ _ _ => VariableDefinition.render_led, fun _ _ _ _ => Operation.addVariable_declared,
    fun ds o => ?_, fun _ _ _ => Json.read_operation, fun text v hv constant t ht => ?_⟩
  · obtain ⟨done, rest, hds, hrest, hkeys⟩ :=
      Operation.addVariables_keys ds { o with declared := [] }
    exact ⟨done, rest, hds, hrest, fun key => (hkeys key).trans (or_iff_right List.not_mem_nil)⟩
  · have hname : v = Value.varNamed text :=
      hv.elim id fun ⟨hh, hv⟩ => hv.trans (Value.ofTag_eq_varNamed hh)
    rw [hname] at ht
    have htext := Value.toList_render_varNamed ht
    refine ⟨fun hn => led_of_withSigil [] (by rw [htext, List.append_nil]) (.inl hn), fun hn => ?_⟩
    rw [htext, withSigil_eq, hn, List.append_nil]

/-- A second dollar sign is kept, and so is a second at sign. -/
theorem rendered_sigils_of_two :
    Directive.ofShape (.name "@@x") = .ok ⟨"@@x", []⟩ ∧
      (∀ t, Directive.render false ⟨"@@x", []⟩ = .ok t → Led '@' 2 t) ∧
      (∃ d, (∀ o, Operation.addVariable "$$v" (.type "T") o =
          .ok () { o with declared := Keyed.insert "$v" d o.declared }) ∧
        ∀ t, d.render "$v" = .ok t → Led '$' 2 t) ∧
      ∀ t, (Value.varNamed "$$v").render false = .ok t → Led '$' 2 t := by
  obtain ⟨hshape, -, -, -, hvariable, -, -, -, hvalue⟩ := rendered_sigils
  have hx : Directive.ofShape (.name "@@x") = .ok ⟨"@@x", []⟩ := rfl
  refine ⟨hx, fun t ht => ?_, ⟨{ type := "T" }, fun o => rfl, fun t ht => ?_⟩, fun t ht => ?_⟩
  · exact (hshape _ _ hx).2 false t ht
  · exact hvariable "$$v" _ t ht
  · exact (hvalue "$$v" _ (.inl rfl) false t ht).1 (by decide)

/-- It is not true that one sigil is all there ever is. -/
theorem sigils_doubled :
    (¬ ∀ name d t, Directive.new name = .ok d → d.render false = .ok t → Led '@' 1 t) ∧
    (¬ ∀ name shape o o', Operation.addVariable name shape o = .ok () o' →
      ∀ d ∈ o'.declared, ∀ t, d.2.render d.1 = .ok t → Led '$' 1 t) ∧
    ¬ ∀ text t, (Value.varNamed text).render false = .ok t → Led '$' 1 t := by
  have htwice {c : Char} {t : String} {cs : List Char} (ht : t.toList = c :: c :: cs) :
      ¬ Led c 1 t := by
    rintro ⟨x, rest, hled, hx⟩
    rw [ht] at hled
    cases hled
    exact hx rfl
  refine ⟨fun h => htwice rfl (h "@@x" ⟨"@@x", []⟩ "@@x" rfl rfl), fun h => ?_, fun h => ?_⟩
  · have hdeclared := h "$$v" (.type "T") { kind := .query } _ rfl ("$v", { type := "T" }) (.head _)
    exact htwice rfl (hdeclared "$$v: T" rfl)
  · exact htwice rfl (h "$$v" "$$v" rfl)

end QueryDocument
