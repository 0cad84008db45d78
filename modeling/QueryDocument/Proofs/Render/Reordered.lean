import Mathlib.Data.List.Perm.Basic
import QueryDocument.Proofs.Document.Equivalence
import QueryDocument.Proofs.Offence

/-!
Equality and rendering. The offences of a tree are those of its canonical form in another order, so
that of two equal nodes both have a text or none has, though the texts and the first offences may
differ.
-/
namespace QueryDocument

theorem flatMap_map_perm {α ε : Type} {f : α → α} {os : α → List ε} {xs : List α}
    (h : ∀ x ∈ xs, (os (f x)).Perm (os x)) : ((xs.map f).flatMap os).Perm (xs.flatMap os) := by
  rw [List.flatMap_map]
  exact List.Perm.flatMap_left xs h

namespace Keyed

/-- Sorting by key collects the same in another order. -/
theorem flatMap_sorted_perm {α ε : Type} {f : α → α} {os : α → List ε} {es : Keyed α}
    (h : ∀ e ∈ es, (os (f e.2)).Perm (os e.2)) :
    ((sorted (mapValues f es)).flatMap fun e => os e.2).Perm (es.flatMap fun e => os e.2) :=
  ((sorted_perm _).flatMap_right _).trans (by
    rw [mapValues, List.flatMap_map]
    exact List.Perm.flatMap_left es h)

end Keyed

namespace Value

mutual
/-- Sorting the keys of an object value, at any depth, only moves its offences. -/
theorem offences_canonical (constant : Bool) :
    (v : Value) → (v.canonical.offences constant).Perm (v.offences constant)
  | .bool _ | .enum _ | .int _ | .null | .string _ | .var _ => .refl _
  | .float x => by
    rw [canonical, Binary64.canonical]
    split
    case isTrue hx =>
      have hfinite : x.isFinite = true := by
        rw [Binary64.isFinite, hx]
        rfl
      rw [offences, offences, if_pos hfinite]
      exact .refl _
    case isFalse => exact .refl _
  | .list items => by
    rw [canonical, offences, offences, canonicalItems_eq_map, offencesOfItems_eq_flatMap,
      offencesOfItems_eq_flatMap]
    exact flatMap_map_perm (items_offences_canonical constant items)
  | .object fields => by
    rw [canonical, offences, offences, canonicalFields_eq_mapValues, offencesOfFields_eq_flatMap,
      offencesOfFields_eq_flatMap]
    exact Keyed.flatMap_sorted_perm (fields_offences_canonical constant fields)

theorem items_offences_canonical (constant : Bool) : (vs : List Value) →
    ∀ v ∈ vs, (v.canonical.offences constant).Perm (v.offences constant)
  | [] => nofun
  | v :: vs => List.forall_mem_cons.2
    ⟨offences_canonical constant v, items_offences_canonical constant vs⟩

theorem fields_offences_canonical (constant : Bool) : (fs : List (String × Value)) →
    ∀ f ∈ fs, (f.2.canonical.offences constant).Perm (f.2.offences constant)
  | [] => nofun
  | (_, v) :: fs => List.forall_mem_cons.2
    ⟨offences_canonical constant v, fields_offences_canonical constant fs⟩
end

end Value

/-- The names of the arguments are no offences here, so only their values count. -/
theorem Arguments.offences_canonical (constant : Bool) (args : Arguments) :
    (Value.offencesOfFields constant (Arguments.canonical args)).Perm
      (Value.offencesOfFields constant args) := by
  rw [canonical, Value.canonicalFields_eq_mapValues, Value.offencesOfFields_eq_flatMap,
    Value.offencesOfFields_eq_flatMap]
  exact Keyed.flatMap_sorted_perm (Value.fields_offences_canonical constant args)

theorem Directive.offencesOfAll_canonical (constant : Bool) (ds : List Directive) :
    (offencesOfAll constant (ds.map canonical)).Perm (offencesOfAll constant ds) :=
  flatMap_map_perm fun d _ => Arguments.offences_canonical constant d.arguments

theorem VariableDefinition.offences_canonical (d : VariableDefinition) :
    d.canonical.offences.Perm d.offences := by
  refine List.Perm.append ?_ (Directive.offencesOfAll_canonical true d.directives)
  change (offencesOfDefault (d.default.map Value.canonical)).Perm _
  cases d.default with
  | none => exact .refl _
  | some v => exact v.offences_canonical true

mutual
/-- The arguments of a field are sorted, its directives and its selections keep their order. -/
theorem Field.offences_canonical : (f : Field) → f.canonical.offences.Perm f.offences
  | ⟨_, _, args, ds, ss⟩ => by
    rw [Field.canonical, Field.offences, Field.offences]
    exact ((Arguments.offences_canonical false args).append
      (Directive.offencesOfAll_canonical false ds)).append
        (Selection.offencesOfAll_canonical ss)

theorem InlineFragment.offences_canonical :
    (f : InlineFragment) → f.canonical.offences.Perm f.offences
  | ⟨_, ds, ss⟩ => by
    rw [InlineFragment.canonical, InlineFragment.offences, InlineFragment.offences]
    exact (Directive.offencesOfAll_canonical false ds).append
      (Selection.offencesOfAll_canonical ss)

theorem Selection.offences_canonical : (s : Selection) → s.canonical.offences.Perm s.offences
  | .field f => by
    rw [Selection.canonical, Selection.offences, Selection.offences]
    exact Field.offences_canonical f
  | .spread s => by
    rw [Selection.canonical, Selection.offences, Selection.offences]
    exact Directive.offencesOfAll_canonical false s.directives
  | .inlineFragment f => by
    rw [Selection.canonical, Selection.offences, Selection.offences]
    exact InlineFragment.offences_canonical f
  | .unknown => by
    rw [Selection.canonical]

theorem Selection.offencesOfAll_canonical : (ss : List Selection) →
    (Selection.offencesOfAll (Selection.canonicalAll ss)).Perm (Selection.offencesOfAll ss)
  | [] => .refl _
  | s :: ss => by
    rw [Selection.canonicalAll, Selection.offencesOfAll, Selection.offencesOfAll]
    exact (Selection.offences_canonical s).append (Selection.offencesOfAll_canonical ss)
end

theorem FragmentDefinition.offences_canonical (f : FragmentDefinition) :
    f.canonical.offences.Perm f.offences := by
  have hss := Selection.offencesOfAll_canonical f.selections
  rw [Selection.canonicalAll_eq_map] at hss
  exact (Directive.offencesOfAll_canonical false f.directives).append hss

/-- The declared variables may be told in any order. -/
theorem Operation.offences_canonical (o : Operation) : o.canonical.offences.Perm o.offences := by
  have hdeclared : (o.canonical.declared.flatMap fun d => d.2.offences).Perm
      (o.declared.flatMap fun d => d.2.offences) :=
    Keyed.flatMap_sorted_perm fun d _ => d.2.offences_canonical
  have hss := Selection.offencesOfAll_canonical o.selections
  rw [Selection.canonicalAll_eq_map] at hss
  exact (hdeclared.append (Directive.offencesOfAll_canonical false o.directives)).append hss

theorem Definition.offences_canonical (d : Definition) :
    d.canonical.offences.Perm d.offences := by
  cases d with
  | fragment f => exact f.offences_canonical
  | operation o => exact o.offences_canonical
  | unknown => exact .refl _

/-- The canonical form of a node has the same offences, each as often. -/
theorem Node.offences_canonical (node : Node) : node.canonical.offences.Perm node.offences := by
  cases node with
  | document d => exact flatMap_map_perm fun x _ => x.offences_canonical
  | field f => exact f.offences_canonical
  | fragmentDefinition f => exact f.offences_canonical
  | fragmentSpread s => exact Directive.offencesOfAll_canonical false s.directives
  | inlineFragment f => exact f.offences_canonical
  | operation o => exact o.offences_canonical

/-- Equal nodes have the same offences, if in another order. -/
theorem Node.offences_perm {a b : Node} (ha : a.Distinct) (hb : b.Distinct)
    (h : (a == b) = true) : a.offences.Perm b.offences := by
  obtain ⟨-, -, hcanonical⟩ := (compares ha hb).1 h
  exact a.offences_canonical.symm.trans (hcanonical ▸ b.offences_canonical)

/-- What equality is on the trees of one kind that hold each key of a map once: an equivalence among
those without a NaN, on which it is sameness of the canonical forms. A tree with a NaN is equal to
none, itself included. -/
structure EqualityLaws {α : Type} [BEq α] (Distinct : α → Prop) (floats : α → List Binary64)
    (canonical : α → α) : Prop where
  refl : ∀ x, Distinct x → Numeric (floats x) → (x == x) = true
  symm : ∀ x y, Distinct x → Distinct y → (x == y) = true → (y == x) = true
  trans : ∀ x y z, Distinct x → Distinct y → Distinct z →
    (x == y) = true → (y == z) = true → (x == z) = true
  nan : ∀ x y, Distinct x → Distinct y → ¬ Numeric (floats x) →
    (x == y) = false ∧ (y == x) = false
  same : ∀ x y, Distinct x → Distinct y → Numeric (floats x) → Numeric (floats y) →
    ((x == y) = true ↔ canonical x = canonical y)

/-- Comparing by canonical forms is all that the laws of equality need. -/
theorem EqualityLaws.of_compares {α : Type} [BEq α] {Distinct : α → Prop}
    {floats : α → List Binary64} {canonical : α → α}
    (h : ∀ x y, Distinct x → Distinct y → Compares floats canonical x y) :
    EqualityLaws Distinct floats canonical where
  refl x hx hn := (h x x hx hx).2 ⟨hn, hn, rfl⟩
  symm x y hx hy he := by
    obtain ⟨hnx, hny, hc⟩ := (h x y hx hy).1 he
    exact (h y x hy hx).2 ⟨hny, hnx, hc.symm⟩
  trans x y z hx hy hz hxy hyz := by
    obtain ⟨hnx, -, hc⟩ := (h x y hx hy).1 hxy
    obtain ⟨-, hnz, hc'⟩ := (h y z hy hz).1 hyz
    exact (h x z hx hz).2 ⟨hnx, hnz, hc.trans hc'⟩
  nan x y hx hy hn := by
    constructor
    · exact Bool.eq_false_iff.2 fun he => hn ((h x y hx hy).1 he).1
    · exact Bool.eq_false_iff.2 fun he => hn ((h y x hy hx).1 he).2.1
  same x y hx hy hnx hny := by
    have hiff := h x y hx hy
    rw [Compares] at hiff
    rw [hiff]
    exact ⟨fun hc => hc.2.2, fun hc => ⟨hnx, hny, hc⟩⟩

/-- Under every key the maps hold equal values, or both nothing. -/
def Keyed.Matches {α : Type} [BEq α] (xs ys : Keyed α) : Prop :=
  ∀ k, Option.Rel (fun x y => (x == y) = true) (xs.lookup k) (ys.lookup k)

/-- Two maps are equal if they have the same keys, and equal values there. The order in which
they were given is no part of it. -/
theorem Arguments.eq_iff_matches {as bs : Arguments} (ha : as.Distinct) (hb : bs.Distinct) :
    Value.eqArguments as bs = true ↔ Keyed.Matches as bs := by
  rw [Value.eqArguments_eq_agree]
  exact Keyed.agree_iff_lookup ha.keys hb.keys

theorem Value.object_eq_iff {as bs : Arguments} (ha : as.Distinct) (hb : bs.Distinct) :
    (Value.object as == .object bs) = true ↔ Keyed.Matches as bs := by
  rw [← Arguments.eq_iff_matches ha hb]
  change Value.eq _ _ = true ↔ _
  rw [Value.eq, Value.eqArguments]

/-- The names are compared as they were given, with their at signs. -/
theorem Directive.eq_iff {a b : Directive} (ha : a.Distinct) (hb : b.Distinct) :
    (a == b) = true ↔ a.name = b.name ∧ Keyed.Matches a.arguments b.arguments := by
  rw [← Arguments.eq_iff_matches ha hb]
  change Directive.eq a b = true ↔ _
  rw [Directive.eq, Bool.and_eq_true, beq_iff_eq]

/-- Directives and selections are compared in their order, arguments by name. -/
theorem Field.eq_iff {a b : Field} (ha : a.Distinct) (hb : b.Distinct) :
    (a == b) = true ↔ a.name = b.name ∧ a.label = b.label ∧
      Keyed.Matches a.arguments b.arguments ∧ (a.directives == b.directives) = true ∧
      (a.selections == b.selections) = true := by
  obtain ⟨name, label, args, ds, ss⟩ := a
  obtain ⟨name', label', args', ds', ss'⟩ := b
  change Field.eq _ _ = true ↔ _
  simp only [Field.eq, Bool.and_eq_true, beq_iff_eq, Arguments.eq_iff_matches ha.1 hb.1,
    Selection.eqAll_eq_beq, and_assoc]

/-- The variables are compared by name, and not in the order of declaration. -/
theorem Operation.eq_iff {a b : Operation} (ha : a.Distinct) (hb : b.Distinct) :
    (a == b) = true ↔ a.kind = b.kind ∧ a.name = b.name ∧
      Keyed.Matches a.declared b.declared ∧ (a.directives == b.directives) = true ∧
      (a.selections == b.selections) = true := by
  have hdeclared : Keyed.agree VariableDefinition.eq a.declared b.declared = true ↔
      Keyed.Matches a.declared b.declared := Keyed.agree_iff_lookup ha.declared hb.declared
  change Operation.eq _ _ = true ↔ _
  simp only [Operation.eq, Bool.and_eq_true, beq_iff_eq, hdeclared, Selection.eqAll_eq_beq,
    and_assoc]

/-- Whether there is a text does not depend on the order of the offences, only the error may be
another one. -/
theorem Formatter.format_ok_congr {a b : Node} (h : a.offences.Perm b.offences) (f : Formatter)
    (level : Nat) :
    (∃ text, f.format level a = .ok text) ↔ ∃ text, f.format level b = .ok text := by
  rw [(f.format_reports level a).ok_iff, (f.format_reports level b).ok_iff]
  exact ⟨fun ha => (ha ▸ h).nil_eq.symm, fun hb => (hb ▸ h).eq_nil⟩

/-- The sign of a zero is not compared. -/
theorem Value.float_eq_of_zero {x y : Binary64} (hx : x.magnitude = 0) (hy : y.magnitude = 0) :
    (Value.float x == .float y) = true := by
  have hnan (z : Binary64) (hz : z.magnitude = 0) : z.isNaN = false := by
    rw [Binary64.isNaN, hz]
    rfl
  refine (Binary64.eq_iff x y).2 ⟨hnan x hx, hnan y hy, ?_⟩
  rw [Binary64.canonical, Binary64.canonical, if_pos hx, if_pos hy]

/-- Equality of values, directives, variable definitions, selections, definitions and nodes is an
equivalence on the trees without a NaN, and a tree with one is equal to none. Objects, arguments and
variables are compared by key, and both zeros are one. Equal nodes have the same offences, of which
the first may differ; in every layout and at every level both have a text or none has. -/
theorem equality_lawful :
    EqualityLaws Value.Distinct Value.floats Value.canonical ∧
    EqualityLaws Directive.Distinct Directive.floats Directive.canonical ∧
    EqualityLaws VariableDefinition.Distinct VariableDefinition.floats
      VariableDefinition.canonical ∧
    EqualityLaws Selection.Distinct Selection.floats Selection.canonical ∧
    EqualityLaws Definition.Distinct Definition.floats Definition.canonical ∧
    EqualityLaws Node.Distinct Node.floats Node.canonical ∧
    (∀ as bs : Arguments, as.Distinct → bs.Distinct →
      ((Value.object as == .object bs) = true ↔ Keyed.Matches as bs)) ∧
    (∀ a b : Directive, a.Distinct → b.Distinct →
      ((a == b) = true ↔ a.name = b.name ∧ Keyed.Matches a.arguments b.arguments)) ∧
    (∀ a b : Field, a.Distinct → b.Distinct →
      ((a == b) = true ↔ a.name = b.name ∧ a.label = b.label ∧
        Keyed.Matches a.arguments b.arguments ∧ (a.directives == b.directives) = true ∧
        (a.selections == b.selections) = true)) ∧
    (∀ a b : Operation, a.Distinct → b.Distinct →
      ((a == b) = true ↔ a.kind = b.kind ∧ a.name = b.name ∧
        Keyed.Matches a.declared b.declared ∧ (a.directives == b.directives) = true ∧
        (a.selections == b.selections) = true)) ∧
    (∀ x y : Binary64, x.magnitude = 0 → y.magnitude = 0 →
      (Value.float x == .float y) = true) ∧
    ∀ a b : Node, a.Distinct → b.Distinct → (a == b) = true →
      a.offences.Perm b.offences ∧ ∀ (f : Formatter) (level : Nat),
        (∃ text, f.format level a = .ok text) ↔ ∃ text, f.format level b = .ok text := by
  refine ⟨.of_compares fun a b ha hb => a.compares ha b hb,
    .of_compares fun _ _ => Directive.compares, .of_compares fun _ _ => VariableDefinition.compares,
    .of_compares fun a b ha hb => a.compares ha b hb, .of_compares fun _ _ => Definition.compares,
    .of_compares fun _ _ => Node.compares, fun _ _ => Value.object_eq_iff,
    fun _ _ => Directive.eq_iff, fun _ _ => Field.eq_iff, fun _ _ => Operation.eq_iff,
    fun _ _ => Value.float_eq_of_zero, fun a b ha hb h => ?_⟩
  have hperm := Node.offences_perm ha hb h
  exact ⟨hperm, Formatter.format_ok_congr hperm⟩

/-- A query with one field, by the variables of the one and the arguments of the other. -/
def querying (declared : Keyed VariableDefinition) (args : Arguments) : Node :=
  .operation { kind := .query, declared, selections := [.field { name := "f", arguments := args }] }

theorem querying_beq {declared declared' : Keyed VariableDefinition} {args args' : Arguments}
    (hd : Keyed.agree VariableDefinition.eq declared declared' = true)
    (ha : Value.eqArguments args args' = true) :
    (querying declared args == querying declared' args') = true := by
  change Operation.eq _ _ = true
  simp [Operation.eq, Selection.eqAll, Selection.eq, Field.eq, hd, ha]

theorem querying_distinct {declared : Keyed VariableDefinition} {args : Arguments}
    (hk : Keyed.Distinct declared) (hd : ∀ d ∈ declared, d.2.Distinct) (ha : args.Distinct) :
    (querying declared args).Distinct := by
  refine Operation.Distinct.mk hk hd nofun fun s hs => ?_
  rw [List.mem_singleton.1 hs]
  exact ⟨ha, nofun, trivial⟩

theorem querying_offences (declared : Keyed VariableDefinition) (args : Arguments) :
    (querying declared args).offences =
      (declared.flatMap fun d => d.2.offences) ++ Value.offencesOfFields false args := by
  simp [querying, Node.offences, Operation.offences, Directive.offencesOfAll,
    Selection.offencesOfAll, Selection.offences, Field.offences]

/-- Two equal queries of which the one fails for an enum and the other for a variable. -/
theorem equality_lawful_of_reordered :
    let x : Value := .object [("k", .float ⟨0⟩), ("l", .null)]
    let y : Value := .object [("l", .null), ("k", .float ⟨0x8000000000000000⟩)]
    let a := querying [("u", { type := "Int" }), ("v", { type := "T", default := some x })]
      [("o", x), ("p", .enum ""), ("q", .var "")]
    let b := querying [("v", { type := "T", default := some y }), ("u", { type := "Int" })]
      [("q", .var ""), ("o", y), ("p", .enum "")]
    let n : Value := .list [.object [("k", .float ⟨0x7FF8000000000000⟩)]]
    let namelessEnum := RenderError.unsupportedValue .namelessEnum (.enum "")
    let namelessVariable := RenderError.unsupportedValue .namelessVariable (.var "")
    (a == b) = true ∧ (b == a) = true ∧ a.offences = [namelessEnum, namelessVariable] ∧
      b.offences = [namelessVariable, namelessEnum] ∧
      (∀ (f : Formatter) (level : Nat),
        (∃ text, f.format level a = .ok text) ↔ ∃ text, f.format level b = .ok text) ∧
      (n == n) = false := by
  intro x y a b n namelessEnum namelessVariable
  obtain ⟨hvalue, -, -, -, -, hnode, -, -, -, -, -, hrender⟩ := equality_lawful
  have hx : x.Distinct := ⟨by decide, trivial, trivial, trivial⟩
  have hy : y.Distinct := ⟨by decide, trivial, trivial, trivial⟩
  have hdeclared (v : Value) (hv : v.Distinct) :
      VariableDefinition.Distinct { type := "T", default := some v } :=
    ⟨fun w hw => Option.mem_some.1 hw ▸ hv, nofun⟩
  have hplain : VariableDefinition.Distinct { type := "Int" } := ⟨nofun, nofun⟩
  have ha : a.Distinct := by
    refine querying_distinct (by decide) ?_ ⟨by decide, hx, trivial, trivial, trivial⟩
    exact List.forall_mem_cons.2 ⟨hplain, List.forall_mem_singleton.2 (hdeclared x hx)⟩
  have hb : b.Distinct := by
    refine querying_distinct (by decide) ?_ ⟨by decide, trivial, hy, trivial, trivial⟩
    exact List.forall_mem_cons.2 ⟨hdeclared y hy, List.forall_mem_singleton.2 hplain⟩
  have hab : (a == b) = true := querying_beq (by decide) (by decide)
  have hn : n.Distinct := ⟨⟨by decide, trivial, trivial⟩, trivial⟩
  have hnan : ¬ Numeric n.floats := fun h => absurd (h _ (List.mem_singleton.2 rfl)) (by decide)
  exact ⟨hab, hnode.symm a b ha hb hab, (querying_offences _ _).trans rfl,
    (querying_offences _ _).trans rfl, (hrender a b ha hb hab).2, (hvalue.nan n n hn hn hnan).1⟩

end QueryDocument
