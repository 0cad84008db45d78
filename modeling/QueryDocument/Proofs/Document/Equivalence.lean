import QueryDocument.Document.Equality
import QueryDocument.Proofs.Document.Canonical

/-!
Equality of trees is equality of their canonical forms, for trees without a NaN; a tree with a NaN
is equal to none.
-/
namespace QueryDocument

/-- None of the floats is a NaN. -/
def Numeric (xs : List Binary64) : Prop := ∀ x ∈ xs, x.isNaN = false

@[simp] theorem numeric_nil : Numeric [] := nofun

@[simp] theorem numeric_append {xs ys : List Binary64} :
    Numeric (xs ++ ys) ↔ Numeric xs ∧ Numeric ys := List.forall_mem_append

theorem numeric_flatMap {α : Type} {f : α → List Binary64} {xs : List α} :
    Numeric (xs.flatMap f) ↔ ∀ x ∈ xs, Numeric (f x) := by
  simp only [Numeric, List.mem_flatMap]
  exact ⟨fun h x hx y hy => h y ⟨x, hx, hy⟩, fun h y ⟨x, hx, hy⟩ => h x hx y hy⟩

/-- Two trees are equal exactly if no float in them is a NaN and they have one canonical form. -/
def Compares {α : Type} [BEq α] (floats : α → List Binary64) (canonical : α → α) (x y : α) : Prop :=
  (x == y) = true ↔ Numeric (floats x) ∧ Numeric (floats y) ∧ canonical x = canonical y

namespace Compares

variable {α : Type} [BEq α] {floats : α → List Binary64} {canonical : α → α}

/-- Lists are compared in their order, and those of different lengths are unequal. -/
theorem list {xs ys : List α} (h : ∀ x ∈ xs, ∀ y ∈ ys, Compares floats canonical x y) :
    Compares (List.flatMap floats) (List.map canonical) xs ys := by
  induction xs generalizing ys with
  | nil => cases ys <;> simp [Compares]
  | cons x xs ih =>
    cases ys with
    | nil => simp [Compares]
    | cons y ys =>
      have hhead := h x List.mem_cons_self y List.mem_cons_self
      have htail := ih fun x' hx y' hy =>
        h x' (List.mem_cons_of_mem x hx) y' (List.mem_cons_of_mem y hy)
      rw [Compares] at hhead htail ⊢
      rw [List.cons_beq_cons, Bool.and_eq_true, hhead, htail]
      simp only [List.flatMap_cons, numeric_append, List.map_cons, List.cons.injEq]
      -- Both sides are the same facts in another order, here and for the records below.
      grind

/-- Maps are compared without their order, as if both were sorted. -/
theorem keyed {xs ys : Keyed α} (hx : Keyed.Distinct xs) (hy : Keyed.Distinct ys)
    (h : ∀ x ∈ xs, ∀ y ∈ ys, Compares floats canonical x.2 y.2) :
    Keyed.agree (· == ·) xs ys = true ↔ Numeric (xs.flatMap fun x => floats x.2) ∧
      Numeric (ys.flatMap fun y => floats y.2) ∧ Keyed.sorted (Keyed.mapValues canonical xs) =
        Keyed.sorted (Keyed.mapValues canonical ys) := by
  have hvalues : ∀ x ∈ xs, ∀ y ∈ ys, (x.2 == y.2) = true ↔
      Numeric (floats x.2) ∧ Numeric (floats y.2) ∧ canonical x.2 = canonical y.2 := h
  rw [Keyed.sorted_eq_iff (hx.mapValues canonical), numeric_flatMap, numeric_flatMap]
  exact Keyed.agree_iff_perm (p := fun x => Numeric (floats x)) hx hy hvalues

/-- What stands in a case of a sum compares as it does alone. -/
theorem inj {β : Type} [BEq β] {floats' : β → List Binary64} {canonical' : β → β} {c : α → β}
    {x y : α} (hc : ∀ a b, c a = c b → a = b) (hf : ∀ a, floats' (c a) = floats a)
    (hcanonical : ∀ a, canonical' (c a) = c (canonical a)) (hbeq : (c x == c y) = (x == y))
    (h : Compares floats canonical x y) : Compares floats' canonical' (c x) (c y) := by
  have hiff : c (canonical x) = c (canonical y) ↔ canonical x = canonical y :=
    ⟨hc _ _, congrArg c⟩
  rwa [Compares, hbeq, hf, hf, hcanonical, hcanonical, hiff]

end Compares

/-- Floats are equal if neither is a NaN and they are the same, but for the sign of a zero. -/
theorem Binary64.eq_iff (x y : Binary64) :
    x.eq y = true ↔ x.isNaN = false ∧ y.isNaN = false ∧ x.canonical = y.canonical := by
  have hzero : (⟨0⟩ : Binary64).magnitude = 0 := rfl
  have hbits : (x.bits == y.bits) = true ↔ x = y := by
    cases x
    cases y
    simp
  simp only [Binary64.eq, canonical, Bool.and_eq_true, Bool.or_eq_true, hbits, beq_iff_eq,
    Bool.not_eq_true', and_assoc]
  refine and_congr_right fun _ => and_congr_right fun _ => ?_
  by_cases hx : x.magnitude = 0 <;> by_cases hy : y.magnitude = 0
  · simp [hx, hy]
  · have hne : x ≠ y := fun h => hy (h ▸ hx)
    have hne' : ⟨0⟩ ≠ y := fun h => hy (h ▸ hzero)
    simp [hx, hy, hne, hne']
  · have hne : x ≠ y := fun h => hx (h ▸ hy)
    have hne' : x ≠ ⟨0⟩ := fun h => hx (h ▸ hzero)
    simp [hx, hy, hne, hne']
  · simp [hx, hy]

namespace Value

theorem eqItems_eq_beq (as bs : List Value) : eqItems as bs = (as == bs) := by
  induction as generalizing bs with
  | nil => cases bs <;> rfl
  | cons a as ih =>
    cases bs with
    | nil => rfl
    | cons b bs => rw [eqItems, ih, List.cons_beq_cons]; rfl

/-- The recursion over the entries is the lookup of each in the other map. -/
theorem eqArguments_eq_agree (as bs : Arguments) :
    eqArguments as bs = Keyed.agree (· == ·) as bs := by
  rw [eqArguments, Keyed.agree]
  congr 1
  induction as with
  | nil => rfl
  | cons a as ih =>
    rw [eqFields, ih, List.all_cons]
    cases bs.lookup a.1 <;> rfl

mutual
/-- Values of different kinds are never equal, not even an integer and a float. -/
theorem compares : (a : Value) → a.Distinct → (b : Value) → b.Distinct →
    Compares floats canonical a b
  | .bool _, _, b, _ | .enum _, _, b, _ | .int _, _, b, _ | .null, _, b, _ | .string _, _, b, _
  | .var _, _, b, _ => by cases b <;> simp [Compares, BEq.beq, Value.eq, floats, canonical]
  | .float x, _, b, _ => by
    cases b with
    | float y => simpa [Compares, BEq.beq, Value.eq, floats, canonical, Numeric] using x.eq_iff y
    | _ => simp [Compares, BEq.beq, Value.eq, floats, canonical]
  | .list as, ha, b, hb => by
    cases b with
    | list bs =>
      have h := Compares.list (items_compare as ha bs hb)
      rw [Compares, ← eqItems_eq_beq, ← canonicalItems_eq_map, ← canonicalItems_eq_map,
        ← floatsOfItems_eq_flatMap, ← floatsOfItems_eq_flatMap] at h
      rw [Compares, floats, floats, canonical, canonical, list.injEq, ← h]
      change Value.eq _ _ = true ↔ _
      rw [Value.eq]
    | _ => simp [Compares, BEq.beq, Value.eq, floats, canonical]
  | .object as, ha, b, hb => by
    cases b with
    | object bs =>
      have h := Compares.keyed ha.1 hb.1 (fields_compare as ha.2 bs hb.2)
      rw [← eqArguments_eq_agree, ← canonicalFields_eq_mapValues, ← canonicalFields_eq_mapValues,
        ← floatsOfFields_eq_flatMap, ← floatsOfFields_eq_flatMap] at h
      rw [Compares, floats, floats, canonical, canonical, object.injEq, ← h]
      change Value.eq _ _ = true ↔ _
      rw [Value.eq, eqArguments]
    | _ => simp [Compares, BEq.beq, Value.eq, floats, canonical]

theorem items_compare : (as : List Value) → DistinctItems as → (bs : List Value) →
    DistinctItems bs → ∀ a ∈ as, ∀ b ∈ bs, Compares floats canonical a b
  | [], _, _, _ => nofun
  | a :: as, ha, bs, hb => by
    rw [List.forall_mem_cons]
    exact ⟨fun b hm => compares a ha.1 b ((distinctItems_iff bs).1 hb b hm),
      items_compare as ha.2 bs hb⟩

/-- Any field of the one object with any of the other, as the order is not known. -/
theorem fields_compare : (as : List (String × Value)) → DistinctFields as →
    (bs : List (String × Value)) → DistinctFields bs →
    ∀ a ∈ as, ∀ b ∈ bs, Compares floats canonical a.2 b.2
  | [], _, _, _ => nofun
  | (_, a) :: as, ha, bs, hb => by
    rw [List.forall_mem_cons]
    exact ⟨fun b hm => compares a ha.1 b.2 ((distinctFields_iff bs).1 hb b hm),
      fields_compare as ha.2 bs hb⟩
end

end Value

theorem Arguments.compare {as bs : Arguments} (ha : as.Distinct) (hb : bs.Distinct) :
    Value.eqArguments as bs = true ↔ Numeric (Value.floatsOfFields as) ∧
      Numeric (Value.floatsOfFields bs) ∧ Arguments.canonical as = Arguments.canonical bs := by
  have h := Compares.keyed ha.keys hb.keys (Value.fields_compare as ha.values bs hb.values)
  rwa [← Value.eqArguments_eq_agree, ← Value.canonicalFields_eq_mapValues,
    ← Value.canonicalFields_eq_mapValues, ← Value.floatsOfFields_eq_flatMap,
    ← Value.floatsOfFields_eq_flatMap] at h

theorem Directive.compares {a b : Directive} (ha : a.Distinct) (hb : b.Distinct) :
    Compares floats canonical a b := by
  have heq : (a == b) = true ↔
      a.name = b.name ∧ Value.eqArguments a.arguments b.arguments = true := by
    change Directive.eq a b = true ↔ _
    rw [Directive.eq, Bool.and_eq_true, beq_iff_eq]
  rw [Compares, heq, Arguments.compare ha hb]
  simp only [floats, canonical, Directive.mk.injEq]
  grind

/-- In lists of directives, order counts. -/
theorem Directive.compare_all {as bs : List Directive} (ha : ∀ d ∈ as, d.Distinct)
    (hb : ∀ d ∈ bs, d.Distinct) : Compares (List.flatMap floats) (List.map canonical) as bs :=
  Compares.list fun a hma b hmb => compares (ha a hma) (hb b hmb)

/-- No default is not the same as a default of null. -/
theorem VariableDefinition.compares {a b : VariableDefinition} (ha : a.Distinct)
    (hb : b.Distinct) : Compares floats canonical a b := by
  have hdefault : eqDefault a.default b.default = true ↔
      Numeric (a.default.toList.flatMap Value.floats) ∧
        Numeric (b.default.toList.flatMap Value.floats) ∧
        a.default.map Value.canonical = b.default.map Value.canonical := by
    cases hda : a.default with
    | none => cases b.default <;> simp [eqDefault]
    | some v =>
      cases hdb : b.default with
      | none => simp [eqDefault]
      | some w =>
        have h := Value.compares v (ha.default v hda) w (hb.default w hdb)
        simpa [Compares, eqDefault] using h
  have heq : (a == b) = true ↔ a.type = b.type ∧ eqDefault a.default b.default = true ∧
      (a.directives == b.directives) = true := by
    change VariableDefinition.eq a b = true ↔ _
    rw [VariableDefinition.eq, Bool.and_eq_true, Bool.and_eq_true, beq_iff_eq, and_assoc]
  have hds := Directive.compare_all ha.directives hb.directives
  rw [Compares] at hds
  rw [Compares, heq, hdefault, hds]
  simp only [floats, canonical, numeric_append, VariableDefinition.mk.injEq]
  grind

theorem Selection.eqAll_eq_beq (as bs : List Selection) : Selection.eqAll as bs = (as == bs) := by
  induction as generalizing bs with
  | nil => cases bs <;> simp [Selection.eqAll]
  | cons a as ih =>
    cases bs with
    | nil => simp [Selection.eqAll]
    | cons b bs =>
      rw [Selection.eqAll, ih, List.cons_beq_cons]
      rfl

theorem FragmentSpread.compares {a b : FragmentSpread} (ha : a.Distinct) (hb : b.Distinct) :
    Compares floats canonical a b := by
  have heq : (a == b) = true ↔ a.name = b.name ∧ (a.directives == b.directives) = true := by
    change FragmentSpread.eq a b = true ↔ _
    rw [FragmentSpread.eq, Bool.and_eq_true, beq_iff_eq]
  have hds := Directive.compare_all ha hb
  rw [Compares] at hds
  rw [Compares, heq, hds]
  simp only [floats, canonical, FragmentSpread.mk.injEq]
  grind

mutual
/-- Of a field everything is compared, but the order of the arguments does not count. -/
theorem Field.compares : (a : Field) → a.Distinct → (b : Field) → b.Distinct →
    Compares Field.floats Field.canonical a b
  | ⟨name, label, args, ds, ss⟩, ha, ⟨name', label', args', ds', ss'⟩, hb => by
    obtain ⟨hargs, hds, hss⟩ := ha
    obtain ⟨hargs', hds', hss'⟩ := hb
    have hdirectives := Directive.compare_all hds hds'
    have hselections := Compares.list (Selection.members_compare ss hss ss' hss')
    rw [Compares] at hdirectives hselections ⊢
    change Field.eq _ _ = true ↔ _
    simp only [Field.eq, Bool.and_eq_true, beq_iff_eq, Arguments.compare hargs hargs', hdirectives,
      Selection.eqAll_eq_beq, hselections, Field.floats, Selection.floatsOfAll_eq_flatMap,
      Field.canonical, Selection.canonicalAll_eq_map, numeric_append, Field.mk.injEq]
    grind

theorem InlineFragment.compares : (a : InlineFragment) → a.Distinct → (b : InlineFragment) →
    b.Distinct → Compares InlineFragment.floats InlineFragment.canonical a b
  | ⟨type, ds, ss⟩, ha, ⟨type', ds', ss'⟩, hb => by
    have hdirectives := Directive.compare_all ha.1 hb.1
    have hselections := Compares.list (Selection.members_compare ss ha.2 ss' hb.2)
    rw [Compares] at hdirectives hselections ⊢
    change InlineFragment.eq _ _ = true ↔ _
    simp only [InlineFragment.eq, Bool.and_eq_true, beq_iff_eq, hdirectives,
      Selection.eqAll_eq_beq, hselections, InlineFragment.floats, Selection.floatsOfAll_eq_flatMap,
      InlineFragment.canonical, Selection.canonicalAll_eq_map, numeric_append,
      InlineFragment.mk.injEq]
    grind

/-- Selections of different kinds are never equal. Unknown ones always are. -/
theorem Selection.compares : (a : Selection) → a.Distinct → (b : Selection) → b.Distinct →
    Compares Selection.floats Selection.canonical a b
  | .field f, ha, b, hb => by
    cases b with
    | field g =>
      exact (Field.compares f ha g hb).inj (fun _ _ => Selection.field.inj)
        (fun _ => Selection.floats.eq_def _) (fun _ => Selection.canonical.eq_def _)
        (Selection.eq.eq_def _ _)
    | _ => simp [Compares, BEq.beq, Selection.eq, Selection.canonical]
  | .spread s, ha, b, hb => by
    cases b with
    | spread t =>
      exact (FragmentSpread.compares ha hb).inj (fun _ _ => Selection.spread.inj)
        (fun _ => Selection.floats.eq_def _) (fun _ => Selection.canonical.eq_def _)
        (Selection.eq.eq_def _ _)
    | _ => simp [Compares, BEq.beq, Selection.eq, Selection.canonical]
  | .inlineFragment f, ha, b, hb => by
    cases b with
    | inlineFragment g =>
      exact (InlineFragment.compares f ha g hb).inj (fun _ _ => Selection.inlineFragment.inj)
        (fun _ => Selection.floats.eq_def _) (fun _ => Selection.canonical.eq_def _)
        (Selection.eq.eq_def _ _)
    | _ => simp [Compares, BEq.beq, Selection.eq, Selection.canonical]
  | .unknown, _, b, _ => by
    cases b <;> simp [Compares, BEq.beq, Selection.eq, Selection.floats, Selection.canonical]

theorem Selection.members_compare : (as : List Selection) → Selection.DistinctAll as →
    (bs : List Selection) → Selection.DistinctAll bs →
    ∀ a ∈ as, ∀ b ∈ bs, Compares Selection.floats Selection.canonical a b
  | [], _, _, _ => nofun
  | a :: as, ha, bs, hb => by
    rw [List.forall_mem_cons]
    exact ⟨fun b hm => Selection.compares a ha.1 b ((Selection.distinctAll_iff bs).1 hb b hm),
      Selection.members_compare as ha.2 bs hb⟩
end

theorem Selection.compare_all {as bs : List Selection} (ha : ∀ s ∈ as, s.Distinct)
    (hb : ∀ s ∈ bs, s.Distinct) : Compares (List.flatMap floats) (List.map canonical) as bs :=
  Compares.list fun a hma b hmb => compares a (ha a hma) b (hb b hmb)

theorem FragmentDefinition.compares {a b : FragmentDefinition} (ha : a.Distinct)
    (hb : b.Distinct) : Compares floats canonical a b := by
  have hdirectives := Directive.compare_all ha.directives hb.directives
  have hselections := Selection.compare_all ha.selections hb.selections
  rw [Compares] at hdirectives hselections ⊢
  change FragmentDefinition.eq a b = true ↔ _
  simp only [FragmentDefinition.eq, Bool.and_eq_true, beq_iff_eq, hdirectives,
    Selection.eqAll_eq_beq, hselections, floats, canonical, numeric_append,
    FragmentDefinition.mk.injEq]
  grind

/-- The variables of an operation are compared as a map, its directives and its selections in
their order. -/
theorem Operation.compares {a b : Operation} (ha : a.Distinct) (hb : b.Distinct) :
    Compares floats canonical a b := by
  have hdeclared := Compares.keyed ha.declared hb.declared fun x hx y hy =>
    VariableDefinition.compares (ha.declarations x hx) (hb.declarations y hy)
  have hdirectives := Directive.compare_all ha.directives hb.directives
  have hselections := Selection.compare_all ha.selections hb.selections
  rw [Compares] at hdirectives hselections ⊢
  change Keyed.agree VariableDefinition.eq _ _ = true ↔ _ at hdeclared
  change Operation.eq a b = true ↔ _
  simp only [Operation.eq, Bool.and_eq_true, beq_iff_eq, hdeclared, hdirectives,
    Selection.eqAll_eq_beq, hselections, floats, canonical, numeric_append, Operation.mk.injEq]
  grind

theorem Definition.compares {a b : Definition} (ha : a.Distinct) (hb : b.Distinct) :
    Compares floats canonical a b := by
  cases a with
  | fragment f =>
    cases b with
    | fragment g =>
      exact (FragmentDefinition.compares ha hb).inj (fun _ _ => fragment.inj) (fun _ => rfl)
        (fun _ => rfl) rfl
    | _ => simp [Compares, BEq.beq, Definition.eq, canonical]
  | operation o =>
    cases b with
    | operation o' =>
      exact (Operation.compares ha hb).inj (fun _ _ => operation.inj) (fun _ => rfl)
        (fun _ => rfl) rfl
    | _ => simp [Compares, BEq.beq, Definition.eq, canonical]
  | unknown => cases b <;> simp [Compares, BEq.beq, Definition.eq, floats, canonical]

theorem Node.compares {a b : Node} (ha : a.Distinct) (hb : b.Distinct) :
    Compares floats canonical a b := by
  cases a with
  | document d =>
    cases b with
    | document d' =>
      have h := Compares.list fun x hx y hy => Definition.compares (ha x hx) (hb y hy)
      exact h.inj (c := fun ds => document ⟨ds⟩) (fun _ _ he => Document.mk.inj (document.inj he))
        (fun _ => rfl) (fun _ => rfl) rfl
    | _ => simp [Compares, BEq.beq, Node.eq, canonical]
  | field f =>
    cases b with
    | field g =>
      exact (f.compares ha g hb).inj (fun _ _ => field.inj) (fun _ => rfl) (fun _ => rfl) rfl
    | _ => simp [Compares, BEq.beq, Node.eq, canonical]
  | fragmentDefinition f =>
    cases b with
    | fragmentDefinition g =>
      exact (FragmentDefinition.compares ha hb).inj (fun _ _ => fragmentDefinition.inj)
        (fun _ => rfl) (fun _ => rfl) rfl
    | _ => simp [Compares, BEq.beq, Node.eq, canonical]
  | fragmentSpread s =>
    cases b with
    | fragmentSpread t =>
      exact (FragmentSpread.compares ha hb).inj (fun _ _ => fragmentSpread.inj) (fun _ => rfl)
        (fun _ => rfl) rfl
    | _ => simp [Compares, BEq.beq, Node.eq, canonical]
  | inlineFragment f =>
    cases b with
    | inlineFragment g =>
      exact (f.compares ha g hb).inj (fun _ _ => inlineFragment.inj) (fun _ => rfl) (fun _ => rfl)
        rfl
    | _ => simp [Compares, BEq.beq, Node.eq, canonical]
  | operation o =>
    cases b with
    | operation o' =>
      exact (Operation.compares ha hb).inj (fun _ _ => operation.inj) (fun _ => rfl)
        (fun _ => rfl) rfl
    | _ => simp [Compares, BEq.beq, Node.eq, canonical]

end QueryDocument
