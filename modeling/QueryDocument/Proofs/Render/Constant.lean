import QueryDocument.Proofs.Outcome
import QueryDocument.Render.Value

/-!
What a constant position changes. It refuses variable references and does nothing else: where a tree
refers to no variable, its text and its errors are the same in both positions, and where it does,
the first reference is told in a constant position if nothing else is wrong.
-/
namespace QueryDocument

namespace Value

mutual
/-- The variables that a value refers to, in the order of its text. -/
def references : Value → List String
  | .bool _ | .enum _ | .float _ | .int _ | .null | .string _ => []
  | .list items => referencesOfItems items
  | .object fields => referencesOfFields fields
  | .var name => [name]

def referencesOfItems : List Value → List String
  | [] => []
  | v :: vs => v.references ++ referencesOfItems vs

/-- Of the fields of an object as of arguments. -/
def referencesOfFields : List (String × Value) → List String
  | [] => []
  | (_, v) :: fs => v.references ++ referencesOfFields fs
end

end Value

def Directive.references (d : Directive) : List String := Value.referencesOfFields d.arguments

/-- `r true` renders in a constant position what `r false` renders in any other, and these are the
variables that it refers to. -/
structure Restricts {α : Type} (names : List String) (r : Bool → Rendered α) : Prop where
  closed : ∀ a, r true = .ok a → names = [] ∧ r false = .ok a
  same : names = [] → r true = r false
  first : ∀ a name, r false = .ok a → names.head? = some name →
    r true = .error (.constantContext name)

namespace Restricts

variable {α β : Type} {names more : List String} {r : Bool → Rendered α}

theorem fixed (x : Rendered α) : Restricts [] fun _ => x :=
  ⟨fun _ ha => ⟨rfl, ha⟩, fun _ => rfl, nofun⟩

/-- The references of a first step come before those of the next. -/
theorem bind {k : Bool → α → Rendered β} (h : Restricts names r)
    (hk : ∀ a, Restricts more fun c => k c a) :
    Restricts (names ++ more) fun c => r c >>= k c := by
  refine ⟨fun b hb => ?_, fun hn => ?_, fun b name hb hn => ?_⟩
  · obtain ⟨a, ha, hb⟩ := Outcome.bind_eq_ok.1 hb
    obtain ⟨rfl, ha⟩ := h.closed a ha
    obtain ⟨rfl, hb⟩ := (hk a).closed b hb
    exact ⟨rfl, Outcome.bind_eq_ok.2 ⟨a, ha, hb⟩⟩
  · obtain ⟨hn, hm⟩ := List.append_eq_nil_iff.1 hn
    rw [h.same hn]
    cases r false with
    | error e => rfl
    | ok a => exact (hk a).same hm
  · obtain ⟨a, ha, hb⟩ := Outcome.bind_eq_ok.1 hb
    cases names with
    | nil =>
      -- Nothing is refused before, so both positions come to the same point.
      rw [h.same rfl, ha, Outcome.ok_bind]
      exact (hk a).first b name hb hn
    | cons x xs =>
      rw [h.first a name ha hn, Outcome.error_bind]

theorem pure {f : α → β} (h : Restricts names r) :
    Restricts names fun c => r c >>= fun a => Pure.pure (f a) := by
  have hb := h.bind (k := fun _ a => Pure.pure (f a)) fun a => fixed (.ok (f a))
  rwa [List.append_nil] at hb

/-- The first reference in a list is that of the first element that has one. -/
theorem mapM {f : Bool → α → Rendered β} {names : α → List String}
    (h : ∀ x, Restricts (names x) fun c => f c x) (xs : List α) :
    Restricts (xs.flatMap names) fun c => xs.mapM (f c) := by
  induction xs with
  | nil => exact fixed _
  | cons x xs ih =>
    simp only [List.mapM_cons, List.flatMap_cons]
    exact (h x).bind fun _ => ih.pure

end Restricts

namespace Value

mutual
/-- Only the variables in a value tell a constant position from another. Apart from them the
outcome is the same, with the same text or the same error. -/
theorem render_restricts : ∀ v : Value, Restricts v.references fun c => v.render c
  | .bool _ => .fixed _
  | .enum _ => .fixed _
  | .float _ => .fixed _
  | .int _ => .fixed _
  | .list items => (renderItems_restricts items).pure
  | .null => .fixed _
  | .object fields => (renderFields_restricts fields).pure
  | .string _ => .fixed _
  | .var name => by
    refine ⟨fun text ht => ?_, nofun, fun text x ht hx => ?_⟩
    · rw [render] at ht
      split at ht <;> cases ht
    · obtain rfl := Option.some.inj hx
      rw [render] at ht ⊢
      split at ht
      · cases ht
      · rename_i hn
        rw [if_neg hn, if_pos rfl]

theorem renderItems_restricts : ∀ vs : List Value,
    Restricts (referencesOfItems vs) fun c => renderItems c vs
  | [] => .fixed _
  | v :: vs => (render_restricts v).bind fun _ => (renderItems_restricts vs).pure

/-- The keys of an object play no part. -/
theorem renderFields_restricts : ∀ fs : List (String × Value),
    Restricts (referencesOfFields fs) fun c => renderFields c fs
  | [] => .fixed _
  | (_, v) :: fs => (render_restricts v).bind fun _ => (renderFields_restricts fs).pure
end

end Value

theorem renderArguments_restricts (args : Arguments) :
    Restricts (Value.referencesOfFields args) fun c => renderArguments c args := by
  cases args with
  | nil => exact .fixed _
  | cons a args => exact (Value.renderFields_restricts (a :: args)).pure

theorem Directive.render_restricts (d : Directive) :
    Restricts d.references fun c => d.render c :=
  (renderArguments_restricts d.arguments).pure

theorem renderDirectives_restricts (ds : List Directive) :
    Restricts (ds.flatMap Directive.references) fun c => renderDirectives c ds := by
  cases ds with
  | nil => exact .fixed _
  | cons d ds => exact (Restricts.mapM Directive.render_restricts (d :: ds)).pure

/-- What stands on a variable has the same text elsewhere. -/
theorem VariableDefinition.render_elsewhere {name text : String} {d : VariableDefinition}
    (h : d.render name = .ok text) : ∃ default directives,
      text = " ".intercalate (["$" ++ name ++ ":", d.type] ++ default ++ directives.toList) ∧
      (∀ v, d.default = some v → ∃ t, default = ["= " ++ t] ∧ v.render false = .ok t) ∧
      renderDirectives false d.directives = .ok directives := by
  obtain ⟨default, hdefault, h⟩ := Outcome.bind_eq_ok.1 h
  obtain ⟨directives, hdirectives, h⟩ := Outcome.bind_eq_ok.1 h
  have hmoved := ((renderDirectives_restricts d.directives).closed directives hdirectives).2
  refine ⟨default, directives, (Except.ok.inj h).symm, fun v hv => ?_, hmoved⟩
  rw [hv] at hdefault
  obtain ⟨t, ht, hdefault⟩ := Outcome.bind_eq_ok.1 hdefault
  exact ⟨t, (Except.ok.inj hdefault).symm, (v.render_restricts.closed t ht).2⟩

/-- In a constant position a value, arguments, a directive or a list of directives has either the
text that it has elsewhere, and refers to no variable, or no text. Without a variable there is no
difference at all, errors included; and what has a text elsewhere and refers to a variable fails on
the first. So the default and the directives of a variable that has a text can be moved to a field
or an operation. -/
theorem render_restricts_constant :
    (∀ v : Value, Restricts v.references fun constant => v.render constant) ∧
    (∀ args, Restricts (Value.referencesOfFields args) fun constant =>
      renderArguments constant args) ∧
    (∀ d : Directive, Restricts d.references fun constant => d.render constant) ∧
    (∀ ds, Restricts (ds.flatMap Directive.references) fun constant =>
      renderDirectives constant ds) ∧
    ∀ name text (d : VariableDefinition), d.render name = .ok text → ∃ default directives,
      text = " ".intercalate (["$" ++ name ++ ":", d.type] ++ default ++ directives.toList) ∧
      (∀ v, d.default = some v → ∃ t, default = ["= " ++ t] ∧ v.render false = .ok t) ∧
      renderDirectives false d.directives = .ok directives :=
  ⟨Value.render_restricts, renderArguments_restricts, Directive.render_restricts,
    renderDirectives_restricts, fun _ _ _ => VariableDefinition.render_elsewhere⟩

/-- A variable with a default and a directive, both of which hold the value. -/
def held (v : Value) : VariableDefinition := ⟨"T", some (.list [v]), [⟨"d", [("a", v)]⟩]⟩

/-- Default and directive have a text elsewhere; of two variables in a value the first is told. -/
theorem render_restricts_constant_of_held :
    (held .null).render "v" = .ok "$v: T = [null] @d(a: null)" ∧
    (∃ t, (Value.list [.null]).render false = .ok t) ∧
    (∃ directives, renderDirectives false (held .null).directives = .ok directives) ∧
    Directive.render false ⟨"d", [("a", .null)]⟩ = .ok "@d(a: null)" ∧
    (Value.list [.null, .object [("k", .var "x"), ("l", .var "y")]]).render true =
      .error (.constantContext "x") := by
  obtain ⟨hvalue, -, hdirective, -, helsewhere⟩ := render_restricts_constant
  have hheld : (held .null).render "v" = .ok "$v: T = [null] @d(a: null)" := rfl
  have hconstant : Directive.render true ⟨"d", [("a", .null)]⟩ = .ok "@d(a: null)" := rfl
  have hvars : (Value.list [.null, .object [("k", .var "x"), ("l", .var "y")]]).render false =
      .ok "[null, \x7bk: $x, l: $y\x7d]" := rfl
  obtain ⟨_, directives, -, hdefault, hmoved⟩ := helsewhere "v" _ _ hheld
  obtain ⟨t, -, ht⟩ := hdefault _ rfl
  exact ⟨hheld, ⟨t, ht⟩, ⟨directives, hmoved⟩, ((hdirective _).closed _ hconstant).2,
    (hvalue _).first _ "x" hvars rfl⟩

end QueryDocument
