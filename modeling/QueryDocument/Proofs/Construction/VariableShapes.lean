import Mathlib.Data.List.Forall2
import QueryDocument.Proofs.Construction.Declared
import QueryDocument.Proofs.Construction.Shapes

/-!
What a caller may write for a variable definition. `Declares type default ds` is the grammar of the
values and shapes that tell a type, at choice a default, and the values of directives; all of them
make the same definition, or fail in the same way. A value that is not in the grammar lacks its type
or is malformed, and is refused accordingly.
-/
namespace QueryDocument

namespace Value

/-- The slots in which a list or an object holds a type, a default and directives. The entries of an
object may stand in any order, and it may have others. -/
inductive Slots : Value → Option Value → Option Value → Option Value → Prop where
  | one (type : Value) : Slots (.list [type]) (some type) none none
  | two (type default : Value) : Slots (.list [type, default]) (some type) (some default) none
  | three (type default directives : Value) :
    Slots (.list [type, default, directives]) (some type) (some default) (some directives)
  | record (fields : List (String × Value)) :
    Slots (.object fields) (fields.lookup "type") (fields.lookup "default")
      (fields.lookup "directives")

/-- The values that tell a type, a default and directives. -/
inductive Declares (type : String) : Option Value → List Value → Value → Prop where
  | text {v : Value} (h : v.Names type) : Declares type none [] v
  | plain {v slot : Value} {default : Option Value} (hs : v.Slots (some slot) default none)
    (h : slot.Names type) : Declares type default [] v
  | annotated {v slot : Value} {default : Option Value} {ds : List Value}
    (hs : v.Slots (some slot) default (some (.list ds))) (h : slot.Names type) :
    Declares type default ds v

/-- The values in which the slot of the type holds none, whatever stands in the others. -/
inductive Untyped : Value → Prop where
  | absent {v : Value} {default directives : Option Value} (hs : v.Slots none default directives) :
    Untyped v
  | null {v : Value} {default directives : Option Value}
    (hs : v.Slots (some .null) default directives) : Untyped v
  | empty {v slot : Value} {default directives : Option Value}
    (hs : v.Slots (some slot) default directives) (h : slot.Names "") : Untyped v

/-- The values of the wrong form, as a whole, in the slot of the type, or else in that of the
directives. -/
inductive Malformed : Value → Prop where
  | bool (b : Bool) : Malformed (.bool b)
  | float (x : Binary64) : Malformed (.float x)
  | int (n : Int64) : Malformed (.int n)
  | null : Malformed .null
  | var (name : String) : Malformed (.var name)
  | count {items : List Value} (h : items.length = 0 ∨ 3 < items.length) : Malformed (.list items)
  | type {v slot : Value} {default directives : Option Value}
    (hs : v.Slots (some slot) default directives) (hn : slot ≠ .null)
    (h : ∀ text, ¬ slot.Names text) : Malformed v
  | directives {v slot directives : Value} {default : Option Value} {type : String}
    (hs : v.Slots (some slot) default (some directives)) (h : slot.Names type) (ht : type ≠ "")
    (hd : ∀ ds, directives ≠ .list ds) : Malformed v

/-- What is found in the slots decides about a list or an object. -/
theorem Slots.classify {v : Value} {type default directives : Option Value}
    (hs : v.Slots type default directives) :
    v.Untyped ∨ v.Malformed ∨ ∃ type default ds, v.Declares type default ds := by
  -- The type decides first, and the directives only if there is one.
  cases type with
  | none => exact .inl (.absent hs)
  | some slot =>
    by_cases hn : slot = .null
    · subst hn
      exact .inl (.null hs)
    · cases hname : slot.name? with
      | none =>
        refine .inr (.inl (.type hs hn fun text h => ?_))
        rw [names_iff.1 h] at hname
        cases hname
      | some type =>
        have h : slot.Names type := names_iff.2 hname
        by_cases ht : type = ""
        · subst ht
          exact .inl (.empty hs h)
        · cases directives with
          | none => exact .inr (.inr ⟨type, default, [], .plain hs h⟩)
          | some directives =>
            cases directives with
            | list ds => exact .inr (.inr ⟨type, default, ds, .annotated hs h⟩)
            | bool | enum | float | int | null | object | string | var =>
              exact .inr (.inl (.directives hs h ht nofun))

/-- Every value declares a variable, lacks its type or is malformed. -/
theorem classify (v : Value) :
    v.Untyped ∨ v.Malformed ∨ ∃ type default ds, v.Declares type default ds := by
  cases v with
  | enum type => exact .inr (.inr ⟨type, none, [], .text .enum⟩)
  | string type => exact .inr (.inr ⟨type, none, [], .text .string⟩)
  | object fields => exact (Slots.record fields).classify
  | list items =>
    match items with
    | [] => exact .inr (.inl (.count (.inl rfl)))
    | [type] => exact (Slots.one type).classify
    | [type, default] => exact (Slots.two type default).classify
    | [type, default, directives] => exact (Slots.three type default directives).classify
    | _ :: _ :: _ :: _ :: items =>
      exact .inr (.inl (.count (.inr (by simp only [List.length_cons]; omega))))
  | bool b => exact .inr (.inl (.bool b))
  | float x => exact .inr (.inl (.float x))
  | int n => exact .inr (.inl (.int n))
  | null => exact .inr (.inl .null)
  | var name => exact .inr (.inl (.var name))

/-- A default is missing if there is no slot for it. A slot with null in it is a default. -/
theorem Slots.default_eq_none_iff {v : Value} {type default directives : Option Value}
    (hs : v.Slots type default directives) :
    default = none ↔ (∃ text, v.Names text) ∨ (∃ type, v = .list [type]) ∨
      ∃ fields, v = .object fields ∧ fields.lookup "default" = none := by
  have hnames : ∀ text, ¬ v.Names text := by
    rintro text ⟨⟩ <;> cases hs
  cases hs <;> simp [hnames]

end Value

/-- The shapes that tell a type, a default and directives. -/
inductive VariableShape.Declares (type : String) :
    Option Value → List Value → VariableShape → Prop where
  | type : Declares type none [] (.type type)
  | withDefault (v : Value) : Declares type (some v) [] (.withDefault type v)
  | full (v : Value) (ds : List Value) :
    Declares type (some v) ds (.full type v (ds.map DirectiveShape.value))
  | value {default : Option Value} {ds : List Value} {v : Value} (h : v.Declares type default ds) :
    Declares type default ds (.value v)
  | built {default : Option Value} {ds : List Value} {shape : VariableShape}
    (h : shape.Declares type default ds) : Declares type default ds (.built shape)

namespace VariableDefinition

open Outcome

/-- What a type, a default and the values of directives come to. -/
def declared (type : String) (default : Option Value) (ds : List Value) :
    Except BuildError VariableDefinition :=
  if type = "" then .error (.missingType .definition)
  else (fun directives => { type, default, directives }) <$> ds.mapM Directive.ofValue

theorem new_eq (type : String) :
    new type = if type = "" then .error (.missingType .definition) else .ok { type } := by
  simp [new]

theorem new_bind (type : String) (default : Option Value) (ds : List Value) :
    (new type >>= fun d => ds.mapM Directive.ofValue >>= fun directives =>
      pure { d with default, directives }) = declared type default ds := by
  rw [new_eq, declared]
  by_cases ht : type = ""
  · rw [if_pos ht, if_pos ht, error_bind]
  · rw [if_neg ht, if_neg ht, ok_bind]
    rfl

/-- The type is checked first, then the directives in their order. -/
theorem declared_outcome (type : String) (default : Option Value) (ds : List Value) :
    (type = "" → declared type default ds = .error (.missingType .definition)) ∧
    (type ≠ "" → ∀ before x after e, ds = before ++ x :: after →
      (∀ y ∈ before, ∃ d, Directive.ofValue y = .ok d) → Directive.ofValue x = .error e →
      declared type default ds = .error e) ∧
    (type ≠ "" → ∀ directives,
      List.Forall₂ (fun x d => Directive.ofValue x = .ok d) ds directives →
      declared type default ds = .ok { type, default, directives }) := by
  refine ⟨fun ht => ?_, fun ht before x after e hds hbefore hx => ?_, fun ht directives hds => ?_⟩
  · rw [declared, if_pos ht]
  · obtain ⟨made, hmade⟩ := exists_mapM_iff.2 hbefore
    rw [declared, if_neg ht, hds, List.mapM_append, hmade, ok_bind, List.mapM_cons, hx]
    rfl
  · rw [declared, if_neg ht, mapM_of_forall₂ hds, map_ok]

theorem declared_eq_ok {type : String} {default : Option Value} {ds : List Value}
    {d : VariableDefinition} (h : declared type default ds = .ok d) :
    type ≠ "" ∧ d.type = type ∧ d.default = default ∧
      ds.mapM Directive.ofValue = .ok d.directives := by
  unfold declared at h
  split at h
  · cases h
  · rename_i ht
    obtain ⟨directives, hds, rfl⟩ := map_eq_ok.1 h
    exact ⟨ht, rfl, rfl, hds⟩

theorem ofValue_of_slots {v : Value} {type default directives : Option Value}
    (hs : v.Slots type default directives) :
    ofValue v = (ofTypeSlot v type >>= fun d => ofDirectivesSlot v directives >>= fun ds =>
      pure { d with default, directives := ds }) := by
  rw [← ofSlots_eq]
  cases hs <;> rfl

theorem ofTypeSlot_of_names {v slot : Value} {type : String} (h : slot.Names type) :
    ofTypeSlot v (some slot) = new type := by
  cases h <;> rfl

/-- Whichever way it is written, the same is declared, or refused with the same error. -/
theorem ofValue_of_declares {v : Value} {type : String} {default : Option Value} {ds : List Value}
    (h : v.Declares type default ds) : ofValue v = declared type default ds := by
  cases h with
  | text h =>
    have hnew : ofValue v = new type := by cases h <;> rfl
    rw [hnew, new_eq, declared]
    rfl
  | plain hs h =>
    rw [ofValue_of_slots hs, ofTypeSlot_of_names h]
    exact new_bind type default []
  | annotated hs h =>
    rw [ofValue_of_slots hs, ofTypeSlot_of_names h]
    exact new_bind type default ds

theorem ofShape_of_declares {shape : VariableShape} {type : String} {default : Option Value}
    {ds : List Value} (h : shape.Declares type default ds) :
    ofShape shape = declared type default ds := by
  induction h with
  | type =>
    rw [ofShape, new_eq]
    rfl
  | withDefault v =>
    rw [ofShape, new_eq, declared]
    split <;> rfl
  | full v ds =>
    have hds : Directive.ofShapes (ds.map DirectiveShape.value) = ds.mapM Directive.ofValue :=
      List.mapM_map
    rw [ofShape, hds]
    exact new_bind type (some v) ds
  | value h => exact ofValue_of_declares h
  | built _ ih => exact ih

/-- The type is looked at before the other slots. -/
theorem ofValue_of_untyped {v : Value} (h : v.Untyped) :
    ofValue v = .error (.missingType .definition) := by
  cases h with
  | absent hs => rw [ofValue_of_slots hs]; rfl
  | null hs => rw [ofValue_of_slots hs]; rfl
  | empty hs h => rw [ofValue_of_slots hs, ofTypeSlot_of_names h]; rfl

/-- The error tells the whole value and not the slot that is to blame. -/
theorem ofValue_of_malformed {v : Value} (h : v.Malformed) :
    ofValue v = .error (.unsupportedVariable v) := by
  cases h with
  | bool | float | int | null | var => rfl
  | @count items h =>
    match items, h with
    | [], _ => rfl
    | _ :: _ :: _ :: _ :: _, _ => rfl
  | @type _ slot _ _ hs hn h =>
    have hslot : ofTypeSlot v (some slot) = .error (.unsupportedVariable v) := by
      cases slot with
      | null => exact absurd rfl hn
      | enum text => exact absurd .enum (h text)
      | string text => exact absurd .string (h text)
      | bool | float | int | list | object | var => rfl
    rw [ofValue_of_slots hs, hslot, error_bind]
  | @directives _ slot directives _ type hs h ht hd =>
    have hslot : ofDirectivesSlot v (some directives) = .error (.unsupportedVariable v) := by
      cases directives with
      | list ds => exact absurd rfl (hd ds)
      | bool | enum | float | int | null | object | string | var => rfl
    rw [ofValue_of_slots hs, ofTypeSlot_of_names h, new_eq, if_neg ht, ok_bind, hslot, error_bind]

/-- Exactly the values of the grammar that name a type and whose directives are all accepted. -/
theorem ofValue_eq_ok_iff {v : Value} {d : VariableDefinition} :
    ofValue v = .ok d ↔ d.type ≠ "" ∧ ∃ ds, v.Declares d.type d.default ds ∧
      ds.mapM Directive.ofValue = .ok d.directives := by
  constructor
  · intro h
    rcases v.classify with hv | hv | ⟨type, default, ds, hv⟩
    · rw [ofValue_of_untyped hv] at h
      cases h
    · rw [ofValue_of_malformed hv] at h
      cases h
    · rw [ofValue_of_declares hv] at h
      obtain ⟨ht, rfl, rfl, hds⟩ := declared_eq_ok h
      exact ⟨ht, ds, hv, hds⟩
  · rintro ⟨ht, ds, hv, hds⟩
    rw [ofValue_of_declares hv, declared, if_neg ht, hds, map_ok]

/-- The default is what stands in its slot. -/
theorem default_of_slots {v : Value} {type default directives : Option Value}
    (hs : v.Slots type default directives) {d : VariableDefinition} (h : ofValue v = .ok d) :
    d.default = default := by
  rw [ofValue_of_slots hs] at h
  obtain ⟨d₀, -, h⟩ := bind_eq_ok.1 h
  obtain ⟨ds, -, h⟩ := bind_eq_ok.1 h
  cases h
  rfl

/-- A record that lacks the key and a list of one value have no default; a null is one. -/
theorem default_eq_none_iff {v : Value} {d : VariableDefinition} (h : ofValue v = .ok d) :
    d.default = none ↔ (∃ text, v.Names text) ∨ (∃ type, v = .list [type]) ∨
      ∃ fields, v = .object fields ∧ fields.lookup "default" = none := by
  obtain ⟨-, ds, hv, -⟩ := ofValue_eq_ok_iff.1 h
  generalize d.default = default at hv
  cases hv with
  | text hn => exact ⟨fun _ => .inl ⟨_, hn⟩, fun _ => rfl⟩
  | plain hs _ => exact hs.default_eq_none_iff
  | annotated hs _ => exact hs.default_eq_none_iff

/-- Declared in an operation, a variable without a type is told by its name. -/
theorem addVariable_of_untyped {v : Value} (h : v.Untyped) {name : String} (hn : bareName name ≠ "")
    (o : Operation) : Operation.addVariable name (.value v) o =
      .error (.missingType (.ofVariable (bareName name))) o := by
  refine (Operation.addVariable_puts name (.value v)).of_error ?_ o
  rw [Operation.declaration, if_neg hn, ofShape, ofValue_of_untyped h]
  rfl

/-- A malformed value is told by itself, and not by the name of the variable. -/
theorem addVariable_of_malformed {v : Value} (h : v.Malformed) {name : String}
    (hn : bareName name ≠ "") (o : Operation) :
    Operation.addVariable name (.value v) o = .error (.unsupportedVariable v) o := by
  refine (Operation.addVariable_puts name (.value v)).of_error ?_ o
  rw [Operation.declaration, if_neg hn, ofShape, ofValue_of_malformed h]
  rfl

/-- All shapes that tell a type, a default and directives make the same definition or fail with the
same error: on the type, and then on the first directive that is none. A value whose slot of the
type is empty lacks its type, any other value outside the grammar is refused and told as it is, and
there are no values besides. The default of what is made stands in its slot, a null like any other,
and is none where there is no slot. An operation tells which of its variables lacks its type, and is
as it was. -/
theorem shapes_agree :
    (∀ type default ds (shape : VariableShape), shape.Declares type default ds →
      ofShape shape = declared type default ds) ∧
    (∀ type default ds,
      (type = "" → declared type default ds = .error (.missingType .definition)) ∧
      (type ≠ "" → ∀ before x after e, ds = before ++ x :: after →
        (∀ y ∈ before, ∃ d, Directive.ofValue y = .ok d) → Directive.ofValue x = .error e →
        declared type default ds = .error e) ∧
      (type ≠ "" → ∀ directives,
        List.Forall₂ (fun x d => Directive.ofValue x = .ok d) ds directives →
        declared type default ds = .ok { type, default, directives })) ∧
    (∀ v : Value, v.Untyped → ofShape (.value v) = .error (.missingType .definition)) ∧
    (∀ v : Value, v.Malformed → ofShape (.value v) = .error (.unsupportedVariable v)) ∧
    (∀ v : Value, v.Untyped ∨ v.Malformed ∨ ∃ type default ds, v.Declares type default ds) ∧
    (∀ v d, ofShape (.value v) = .ok d ↔ d.type ≠ "" ∧ ∃ ds, v.Declares d.type d.default ds ∧
      ds.mapM Directive.ofValue = .ok d.directives) ∧
    (∀ v d, ofShape (.value v) = .ok d →
      (∀ type default directives, v.Slots type default directives → d.default = default) ∧
      (d.default = none ↔ (∃ text, v.Names text) ∨ (∃ type, v = .list [type]) ∨
        ∃ fields, v = .object fields ∧ fields.lookup "default" = none)) ∧
    ∀ (o : Operation) name (v : Value), bareName name ≠ "" →
      (v.Untyped → Operation.addVariable name (.value v) o =
        .error (.missingType (.ofVariable (bareName name))) o) ∧
      (v.Malformed →
        Operation.addVariable name (.value v) o = .error (.unsupportedVariable v) o) :=
  ⟨fun _ _ _ _ => ofShape_of_declares, declared_outcome, fun _ => ofValue_of_untyped,
    fun _ => ofValue_of_malformed, Value.classify, fun _ _ => ofValue_eq_ok_iff,
    fun _ _ h => ⟨fun _ _ _ hs => default_of_slots hs h, default_eq_none_iff h⟩,
    fun o _ _ hn => ⟨fun h => addVariable_of_untyped h hn o,
      fun h => addVariable_of_malformed h hn o⟩⟩

/-- The directives come before the type, and there is an entry that means nothing. -/
def shuffledRecord (type : Value) (directives : List Value) : Value :=
  .object [("directives", .list directives), ("note", .int 1), ("default", .null), ("type", type)]

theorem shuffledRecord_declares {slot : Value} {type : String} (h : slot.Names type)
    (ds : List Value) : (shuffledRecord slot ds).Declares type (some .null) ds :=
  .annotated (.record _) h

/-- Shapes in which two errors compete, and a null in the place of the default. -/
theorem shapes_agree_of_competing :
    let ds : List Value := [.enum "a", .list [.string "@b", .object [("x", .int 1)]]]
    let made : VariableDefinition :=
      { type := "[ID!]!", default := some .null
        directives := [⟨"a", []⟩, ⟨"@b", [("x", .int 1)]⟩] }
    let untyped : Value := .list [.string "", .var "x", .int 5]
    let malformed : Value := .list [.enum "Int", .null, .object []]
    (VariableShape.full "[ID!]!" .null (ds.map DirectiveShape.value)).Declares "[ID!]!" (some .null)
        ds ∧
      (shuffledRecord (.string "[ID!]!") ds).Declares "[ID!]!" (some .null) ds ∧
      ofShape (.full "[ID!]!" .null (ds.map DirectiveShape.value)) = .ok made ∧
      ofShape (.value (shuffledRecord (.string "[ID!]!") ds)) = .ok made ∧
      ofShape (.value (shuffledRecord (.enum "Int") [.enum "a", .int 2, .enum ""])) =
        .error (.unsupportedDirective (.int 2)) ∧
      untyped.Untyped ∧ ofShape (.value untyped) = .error (.missingType .definition) ∧
      malformed.Malformed ∧
      ofShape (.value malformed) = .error (.unsupportedVariable malformed) ∧
      Operation.addVariable "$$v" (.value untyped) { kind := .query } =
        .error (.missingType (.ofVariable "$v")) { kind := .query } := by
  intro ds made untyped malformed
  obtain ⟨hshapes, hdeclared, huntyped, hmalformed, -, -, -, hvariable⟩ := shapes_agree
  have hfull : (VariableShape.full "[ID!]!" .null (ds.map DirectiveShape.value)).Declares "[ID!]!"
      (some .null) ds := .full .null ds
  have htype : (Value.string "[ID!]!").Names "[ID!]!" := .string
  have hrecord := shuffledRecord_declares htype ds
  have hmade : declared "[ID!]!" (some .null) ds = .ok made :=
    (hdeclared "[ID!]!" (some .null) ds).2.2 (by decide) _ (.cons rfl (.cons rfl .nil))
  have hfails := (hdeclared "Int" (some .null) [.enum "a", .int 2, .enum ""]).2.1 (by decide)
    [.enum "a"] (.int 2) [.enum ""] _ rfl (by simpa using ⟨_, rfl⟩) rfl
  have htyped : untyped.Untyped := .empty (.three _ _ _) .string
  have hform : malformed.Malformed := .directives (.three _ _ _) .enum (by decide) nofun
  exact ⟨hfull, hrecord, (hshapes _ _ _ _ hfull).trans hmade,
    (hshapes _ _ _ _ (.value hrecord)).trans hmade,
    (hshapes _ _ _ _ (.value (shuffledRecord_declares .enum _))).trans hfails,
    htyped, huntyped _ htyped, hform, hmalformed _ hform,
    (hvariable _ "$$v" untyped (by decide)).1 htyped⟩

end VariableDefinition
end QueryDocument
