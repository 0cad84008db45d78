import QueryDocument.Proofs.Construction.WellFormed

/-!
What a caller may write for a directive. `Gives name args` is the grammar of the values and shapes
that name a directive and its arguments; all of them make the same directive, or fail in the same
way. The values that leave out the name, and no others, lack one; whatever else there is, is refused
with the value as it was given.
-/
namespace QueryDocument

namespace Value

/-- A text in the place of a name, as an enum value or as a string. -/
inductive Names (text : String) : Value → Prop where
  | enum : Names text (.enum text)
  | string : Names text (.string text)

theorem names_iff {v : Value} {text : String} : v.Names text ↔ v.name? = some text := by
  constructor
  · rintro (_ | _) <;> rfl
  · intro h
    cases v with
    | enum name =>
      obtain rfl := Option.some.inj h
      exact .enum
    | string name =>
      obtain rfl := Option.some.inj h
      exact .string
    | bool | float | int | list | null | object | var => cases h

/-- The values that name a directive and its arguments. An object may have other entries, and its
entries may stand in any order. -/
inductive Gives (name : String) : Arguments → Value → Prop where
  | text {v : Value} (h : v.Names name) : Gives name [] v
  | alone {v : Value} (h : v.Names name) : Gives name [] (.list [v])
  | call {v : Value} (h : v.Names name) (args : Arguments) :
    Gives name args (.list [v, .object args])
  | bareRecord {v : Value} {fields : List (String × Value)} (hn : fields.lookup "name" = some v)
    (h : v.Names name) (ha : fields.lookup "args" = none) : Gives name [] (.object fields)
  | record {v : Value} {fields args : List (String × Value)} (hn : fields.lookup "name" = some v)
    (h : v.Names name) (ha : fields.lookup "args" = some (.object args)) :
    Gives name args (.object fields)

/-- The values that leave out the name of a directive. -/
inductive Nameless : Value → Prop where
  | alone : Nameless (.list [.null])
  | call (args : Arguments) : Nameless (.list [.null, .object args])
  | absent {fields : List (String × Value)} (h : fields.lookup "name" = none) :
    Nameless (.object fields)
  | null {fields : List (String × Value)} (h : fields.lookup "name" = some .null) :
    Nameless (.object fields)

end Value

/-- The shapes that name a directive and its arguments. -/
inductive DirectiveShape.Gives (name : String) : Arguments → DirectiveShape → Prop where
  | name : Gives name [] (.name name)
  | call (args : Arguments) : Gives name args (.call name args)
  | value {args : Arguments} {v : Value} (h : v.Gives name args) : Gives name args (.value v)
  | built {args : Arguments} {shape : DirectiveShape} (h : shape.Gives name args) :
    Gives name args (.built shape)

namespace Directive

/-- The names that are none are those of at signs only, and the empty one is among them. -/
theorem isNamed_eq_false_iff (name : String) :
    isNamed name = false ↔ ∀ c ∈ name.toList, c = '@' := by
  simp [isNamed]

/-- The name is checked before the arguments. -/
theorem withArguments_outcome (name : String) (args : Arguments) :
    ((∀ c ∈ name.toList, c = '@') →
      withArguments name args = .error (.missingName .directive)) ∧
    ((∃ c ∈ name.toList, c ≠ '@') → "" ∈ Keyed.keys args →
      withArguments name args = .error (.missingName .argument)) ∧
    ((∃ c ∈ name.toList, c ≠ '@') → "" ∉ Keyed.keys args →
      withArguments name args = .ok ⟨name, args⟩) := by
  unfold withArguments checkArguments
  have hargs : (Keyed.keys args).any String.isEmpty = true ↔ "" ∈ Keyed.keys args := by
    simp [List.any_eq_true]
  have hnamed (h : ∃ c ∈ name.toList, c ≠ '@') : isNamed name = true := by
    obtain ⟨c, hc, hne⟩ := h
    rw [← Bool.not_eq_false]
    exact fun hn => hne ((isNamed_eq_false_iff name).1 hn c hc)
  refine ⟨fun h => ?_, fun h ha => ?_, fun h ha => ?_⟩
  · rw [if_neg (by simp [(isNamed_eq_false_iff name).2 h])]
  · rw [if_pos (hnamed h), if_pos (hargs.2 ha), Outcome.error_bind]
  · rw [if_pos (hnamed h), if_neg (mt hargs.1 ha), Outcome.ok_bind, Outcome.pure_eq]

/-- Any way of writing a name and arguments comes to the same check of them. -/
theorem ofValue_of_gives {v : Value} {name : String} {args : Arguments} (h : v.Gives name args) :
    ofValue v = withArguments name args := by
  cases h with
  | text h => cases h <;> rfl
  | alone h => cases h <;> rfl
  | call h => cases h <;> rfl
  | bareRecord hn h ha => cases h <;> simp only [ofValue, hn, ha, Value.name?, new]
  | record hn h ha => cases h <;> simp only [ofValue, hn, ha, Value.name?]

theorem ofShape_of_gives {shape : DirectiveShape} {name : String} {args : Arguments}
    (h : shape.Gives name args) : ofShape shape = withArguments name args := by
  induction h with
  | name => rfl
  | call args => rfl
  | value h => exact ofValue_of_gives h
  | built _ ih => exact ih

/-- A value that has a place for the name and no name in it is refused for that. -/
theorem ofValue_of_nameless {v : Value} (h : v.Nameless) :
    ofValue v = .error (.missingName .directive) := by
  cases h with
  | alone => rfl
  | call args => rfl
  | absent h => simp only [ofValue, h]
  | null h => simp only [ofValue, h]

/-- The cases are those of the definition; in each the value is of one of the two kinds, or else it
is refused. -/
theorem ofValue_of_other {v : Value} (hn : ¬ v.Nameless) (hg : ∀ name args, ¬ v.Gives name args) :
    ofValue v = .error (.unsupportedDirective v) := by
  -- Each case either is in the grammar, lacks its name, or fails as it should.
  unfold ofValue
  split
  case h_1 => exact absurd (.text .enum) (hg _ _)
  case h_2 => exact absurd (.text .string) (hg _ _)
  case h_3 => exact absurd .alone hn
  case h_4 args => exact absurd (.call args) hn
  case h_5 slot _ =>
    split
    case h_1 name hname => exact absurd (.alone (Value.names_iff.2 hname)) (hg _ _)
    case h_2 => rfl
  case h_6 slot args _ =>
    split
    case h_1 name hname => exact absurd (.call (Value.names_iff.2 hname) args) (hg _ _)
    case h_2 => rfl
  case h_7 fields =>
    split
    case h_1 h => exact absurd (.absent h) hn
    case h_2 h => exact absurd (.null h) hn
    case h_3 slot _ hslot =>
      split
      case h_1 => rfl
      case h_2 name hname ha =>
        exact absurd (.bareRecord hslot (Value.names_iff.2 hname) ha) (hg _ _)
      case h_3 name args hname ha =>
        exact absurd (.record hslot (Value.names_iff.2 hname) ha) (hg _ _)
      case h_4 => rfl
  case h_8 => rfl

/-- What makes a directive makes one that all its own spellings make again. -/
theorem ofShape_again {shape shape' : DirectiveShape} {d : Directive} (h : ofShape shape = .ok d)
    (h' : shape'.Gives d.name d.arguments) : ofShape shape' = .ok d := by
  obtain ⟨name, args, hd⟩ : ∃ name args, withArguments name args = .ok d := by
    induction shape with
    | name text => exact ⟨text, [], h⟩
    | call name args => exact ⟨name, args, h⟩
    | value v =>
      obtain ⟨name, args, -, hd, -⟩ := withArguments_of_ofValue h
      exact ⟨name, args, hd⟩
    | built shape ih => exact ih h
  obtain ⟨rfl, -, -⟩ := (withArguments_ok_iff name args d).1 hd
  exact (ofShape_of_gives h').trans hd

/-- All shapes that name a directive and its arguments make the same directive or fail with the same
error: on the name if nothing is left of it behind its at signs, else on an argument without a name.
A value that leaves out the name lacks one, and any other value is refused and told as it is. A
directive that was made already stays as it is, and it is made again by all shapes that give its
name and its arguments. -/
theorem ofShape_spelled :
    (∀ name args (shape : DirectiveShape), shape.Gives name args →
      ofShape shape = withArguments name args) ∧
    (∀ name args,
      ((∀ c ∈ name.toList, c = '@') →
        withArguments name args = .error (.missingName .directive)) ∧
      ((∃ c ∈ name.toList, c ≠ '@') → "" ∈ Keyed.keys args →
        withArguments name args = .error (.missingName .argument)) ∧
      ((∃ c ∈ name.toList, c ≠ '@') → "" ∉ Keyed.keys args →
        withArguments name args = .ok ⟨name, args⟩)) ∧
    (∀ v : Value, v.Nameless → ofShape (.value v) = .error (.missingName .directive)) ∧
    (∀ v : Value, ¬ v.Nameless → (∀ name args, ¬ v.Gives name args) →
      ofShape (.value v) = .error (.unsupportedDirective v)) ∧
    ∀ shape d, ofShape shape = .ok d → ofShape (.built shape) = .ok d ∧
      ∀ shape' : DirectiveShape, shape'.Gives d.name d.arguments → ofShape shape' = .ok d :=
  ⟨fun _ _ _ => ofShape_of_gives, withArguments_outcome, fun _ => ofValue_of_nameless,
    fun _ => ofValue_of_other, fun _ _ h => ⟨h, fun _ => ofShape_again h⟩⟩

/-- An object with the arguments before the name and another entry between them. -/
def spelledRecord (args : Arguments) : Value :=
  .object [("args", .object args), ("note", .null), ("name", .string "@include")]

/-- A null with a number behind it does not leave out the name of a directive. -/
theorem ofShape_spelled_of_record :
    (spelledRecord [("if", .var "x")]).Gives "@include" [("if", .var "x")] ∧
    (spelledRecord [("", .null)]).Gives "@include" [("", .null)] ∧
    ¬ Value.Nameless (.list [.null, .int 5]) ∧
    (∀ name args, ¬ Value.Gives name args (.list [.null, .int 5])) ∧
    ofShape (.value (spelledRecord [("if", .var "x")])) = .ok ⟨"@include", [("if", .var "x")]⟩ ∧
    ofShape (.value (.list [.enum "@include", .object [("if", .var "x")]])) =
      .ok ⟨"@include", [("if", .var "x")]⟩ ∧
    ofShape (.value (spelledRecord [("", .null)])) = .error (.missingName .argument) ∧
    ofShape (.value (.list [.string "@@"])) = .error (.missingName .directive) ∧
    ofShape (.value (.list [.null, .int 5])) =
      .error (.unsupportedDirective (.list [.null, .int 5])) := by
  obtain ⟨hgives, hwith, -, hother, hagain⟩ := ofShape_spelled
  have hrecord : ∀ args, (spelledRecord args).Gives "@include" args :=
    fun args => .record rfl .string rfl
  have hnamed : ¬ Value.Nameless (.list [.null, .int 5]) := nofun
  have hnone : ∀ name args, ¬ Value.Gives name args (.list [.null, .int 5]) := by
    rintro name args ⟨⟨⟩⟩
  have hname : ∃ c ∈ "@include".toList, c ≠ '@' := by simp
  have hmade := (hwith "@include" [("if", .var "x")]).2.2 hname (by simp)
  have hlacks := (hwith "@include" [("", .null)]).2.1 hname (by simp)
  have hsigils := (hwith "@@" []).1 (by simp)
  have hdirective := (hgives _ _ _ (.value (hrecord _))).trans hmade
  have hcall : DirectiveShape.Gives "@include" [("if", .var "x")]
      (.value (.list [.enum "@include", .object [("if", .var "x")]])) := .value (.call .enum _)
  exact ⟨hrecord _, hrecord _, hnamed, hnone, hdirective, (hagain _ _ hdirective).2 _ hcall,
    (hgives _ _ _ (.value (hrecord _))).trans hlacks,
    (hgives _ _ _ (.value (.alone .string))).trans hsigils, hother _ hnamed hnone⟩

end Directive
end QueryDocument
