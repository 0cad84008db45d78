import QueryDocument.Build.Node
import QueryDocument.Proofs.Outcome

/-!
Well-formed trees: the rules of building hold at every depth, and a map holds each of its keys once.
Every function that makes or changes a node keeps to them.
-/
namespace QueryDocument

namespace Keyed

variable {α : Type}

def Distinct (es : Keyed α) : Prop := (keys es).Nodup

/-- An insertion keeps the keys apart, for it writes to the entry that has the key. -/
theorem Distinct.insert {es : Keyed α} (h : Distinct es) (k : String) (v : α) :
    Distinct (insert k v es) := by
  rw [Distinct, keys_insert]
  by_cases hk : k ∈ keys es
  · rwa [if_pos hk]
  · rw [if_neg hk, List.nodup_append]
    refine ⟨h, List.nodup_cons.2 ⟨by simp, List.nodup_nil⟩, ?_⟩
    intro a ha b hb
    rw [List.mem_singleton.1 hb]
    exact fun he => hk (he ▸ ha)

/-- A key does not stand before its own entry. -/
theorem Distinct.notMem_of_append {before after : Keyed α} {e : String × α}
    (h : Distinct (before ++ e :: after)) : e.1 ∉ keys before := by
  rw [Distinct, keys, List.map_append, List.nodup_append] at h
  intro hk
  exact h.2.2 e.1 hk e.1 (by simp) rfl

/-- Nothing is in the map but what was there before and what was written. -/
theorem mem_insert {k : String} {v : α} {e : String × α} {es : Keyed α} (h : e ∈ insert k v es) :
    e = (k, v) ∨ e ∈ es := by
  induction es with
  | nil => exact .inl (List.mem_singleton.1 h)
  | cons x es ih =>
    rw [insert] at h
    split at h
    · rcases List.mem_cons.1 h with h | h
      · exact .inl h
      · exact .inr (List.mem_cons_of_mem x h)
    · rcases List.mem_cons.1 h with h | h
      · exact .inr (h ▸ List.mem_cons_self)
      · exact (ih h).imp_right (List.mem_cons_of_mem x)

theorem insert_of_notMem {k : String} {es : Keyed α} (h : k ∉ keys es) (v : α) :
    insert k v es = es ++ [(k, v)] := by
  induction es with
  | nil => rfl
  | cons e es ih =>
    rw [keys_cons, List.mem_cons, not_or] at h
    rw [insert, if_neg (Ne.symm h.1), ih h.2, List.cons_append]

theorem mem_of_lookup {k : String} {v : α} {es : Keyed α} (h : es.lookup k = some v) :
    (k, v) ∈ es := by
  induction es with
  | nil => cases h
  | cons e es ih =>
    rw [List.lookup_cons] at h
    split at h
    · rename_i hk
      rw [eq_of_beq hk, ← Option.some.inj h]
      exact List.mem_cons_self
    · exact List.mem_cons_of_mem e (ih h)

end Keyed

namespace Value

mutual
/-- Every object in the value holds each of its keys once. -/
def Distinct : Value → Prop
  | .bool _ | .enum _ | .float _ | .int _ | .null | .string _ | .var _ => True
  | .list items => DistinctItems items
  | .object fields => Keyed.Distinct fields ∧ DistinctFields fields

def DistinctItems : List Value → Prop
  | [] => True
  | v :: vs => v.Distinct ∧ DistinctItems vs

def DistinctFields : List (String × Value) → Prop
  | [] => True
  | (_, v) :: fs => v.Distinct ∧ DistinctFields fs
end

theorem distinctItems_iff (vs : List Value) : DistinctItems vs ↔ ∀ v ∈ vs, v.Distinct := by
  induction vs with
  | nil => simp [DistinctItems]
  | cons v vs ih => simp [DistinctItems, ih]

theorem distinctFields_iff (fs : List (String × Value)) :
    DistinctFields fs ↔ ∀ f ∈ fs, f.2.Distinct := by
  induction fs with
  | nil => simp [DistinctFields]
  | cons f fs ih => simp only [DistinctFields, ih, List.forall_mem_cons]

end Value

/-- A map of values, which may have any keys. -/
structure Arguments.Distinct (args : Arguments) : Prop where
  keys : Keyed.Distinct args
  values : Value.DistinctFields args

structure Arguments.WellFormed (args : Arguments) : Prop extends Arguments.Distinct args where
  named : ∀ k ∈ Keyed.keys args, k ≠ ""

structure Directive.WellFormed (d : Directive) : Prop where
  named : d.name.toList.dropWhile (· == '@') ≠ []
  arguments : Arguments.WellFormed d.arguments

structure VariableDefinition.WellFormed (d : VariableDefinition) : Prop where
  typed : d.type ≠ ""
  default : ∀ v ∈ d.default, v.Distinct
  directives : ∀ x ∈ d.directives, x.WellFormed

structure FragmentSpread.WellFormed (s : FragmentSpread) : Prop where
  named : s.name ≠ ""
  directives : ∀ d ∈ s.directives, d.WellFormed

mutual
def Field.WellFormed : Field → Prop
  | ⟨name, label, args, ds, ss⟩ =>
    name ≠ "" ∧ label ≠ some "" ∧ Arguments.WellFormed args ∧ (∀ d ∈ ds, d.WellFormed) ∧
      Selection.WellFormedAll ss

def InlineFragment.WellFormed : InlineFragment → Prop
  | ⟨type, ds, ss⟩ =>
    type ≠ some "" ∧ (∀ d ∈ ds, d.WellFormed) ∧ ss ≠ [] ∧ Selection.WellFormedAll ss

def Selection.WellFormed : Selection → Prop
  | .field f => f.WellFormed
  | .spread s => s.WellFormed
  | .inlineFragment f => f.WellFormed
  | .unknown => True

def Selection.WellFormedAll : List Selection → Prop
  | [] => True
  | s :: ss => s.WellFormed ∧ Selection.WellFormedAll ss
end

theorem Selection.wellFormedAll_iff (ss : List Selection) :
    WellFormedAll ss ↔ ∀ s ∈ ss, s.WellFormed := by
  induction ss with
  | nil => simp [WellFormedAll]
  | cons s ss ih => simp [WellFormedAll, ih]

structure FragmentDefinition.WellFormed (f : FragmentDefinition) : Prop where
  named : f.name ≠ ""
  typed : f.typeCondition ≠ ""
  directives : ∀ d ∈ f.directives, d.WellFormed
  selections : ∀ s ∈ f.selections, s.WellFormed

structure Operation.WellFormed (o : Operation) : Prop where
  named : o.name ≠ some ""
  distinct : Keyed.Distinct o.declared
  variablesNamed : ∀ k ∈ Keyed.keys o.declared, k ≠ ""
  declarations : ∀ d ∈ o.declared, d.2.WellFormed
  directives : ∀ d ∈ o.directives, d.WellFormed
  selections : ∀ s ∈ o.selections, s.WellFormed

def Definition.WellFormed : Definition → Prop
  | .fragment f => f.WellFormed
  | .operation o => o.WellFormed
  | .unknown => True

def Document.WellFormed (d : Document) : Prop := ∀ x ∈ d.definitions, x.WellFormed

def Node.WellFormed : Node → Prop
  | .document d => d.WellFormed
  | .field f => f.WellFormed
  | .fragmentDefinition f => f.WellFormed
  | .fragmentSpread s => s.WellFormed
  | .inlineFragment f => f.WellFormed
  | .operation o => o.WellFormed

/-- An inline fragment in its own block, where it may still lack selections. -/
structure InlineFragment.Open (f : InlineFragment) : Prop where
  typed : f.typeCondition ≠ some ""
  directives : ∀ d ∈ f.directives, d.WellFormed
  selections : ∀ s ∈ f.selections, s.WellFormed

namespace Arguments

theorem distinct_nil : Distinct [] := ⟨List.nodup_nil, trivial⟩

theorem wellFormed_nil : WellFormed [] := ⟨distinct_nil, by simp⟩

theorem distinct_of_object {fields : List (String × Value)} (h : (Value.object fields).Distinct) :
    Distinct fields := by
  rw [Value.Distinct] at h
  exact ⟨h.1, h.2⟩

theorem distinct_of_lookup {fields args : List (String × Value)} {k : String}
    (h : (Value.object fields).Distinct) (hk : fields.lookup k = some (.object args)) :
    Distinct args := by
  have hv := (Value.distinctFields_iff fields).1 (distinct_of_object h).values
  exact distinct_of_object (hv _ (Keyed.mem_of_lookup hk))

end Arguments

/-- The arguments pass if none of them has the empty name. -/
theorem checkArguments_ok_iff (args : Arguments) :
    checkArguments args = .ok () ↔ ∀ k ∈ Keyed.keys args, k ≠ "" := by
  unfold checkArguments
  split
  · rename_i h
    obtain ⟨k, hk, he⟩ := List.any_eq_true.1 h
    constructor
    · intro hc
      cases hc
    · intro hn
      exact absurd (String.isEmpty_iff.1 he) (hn k hk)
  · rename_i h
    refine ⟨fun _ k hk he => h (List.any_eq_true.2 ⟨k, hk, String.isEmpty_iff.2 he⟩), fun _ => rfl⟩

namespace Directive

/-- A name must go on behind the at signs. -/
theorem isNamed_iff (name : String) :
    isNamed name = true ↔ name.toList.dropWhile (· == '@') ≠ [] := by
  rw [isNamed]
  induction name.toList with
  | nil => simp
  | cons c cs ih =>
    by_cases hc : c = '@'
    · simp [hc, ih]
    · simp [hc]

theorem withArguments_ok_iff (name : String) (args : Arguments) (d : Directive) :
    withArguments name args = .ok d ↔
      d = ⟨name, args⟩ ∧ isNamed name = true ∧ checkArguments args = .ok () := by
  unfold withArguments
  by_cases hn : isNamed name = true
  · rw [if_pos hn]
    cases hc : checkArguments args with
    | error e => simp [bind, Except.bind]
    | ok u => simp [bind, Except.bind, pure, Except.pure, hn, eq_comm]
  · rw [if_neg hn]
    simp [hn]

theorem withArguments_of_wellFormed {d : Directive} (h : d.WellFormed) :
    withArguments d.name d.arguments = .ok d :=
  (withArguments_ok_iff _ _ _).2
    ⟨rfl, (isNamed_iff _).2 h.named, (checkArguments_ok_iff _).2 h.arguments.named⟩

/-- The checks are those of the well-formed directives, but for the keys, which a map keeps
apart by itself. -/
theorem wellFormed_of_withArguments {name : String} {args : Arguments} {d : Directive}
    (ha : args.Distinct) (h : withArguments name args = .ok d) : d.WellFormed := by
  obtain ⟨rfl, hn, hc⟩ := (withArguments_ok_iff _ _ _).1 h
  exact ⟨(isNamed_iff _).1 hn, ha, (checkArguments_ok_iff _).1 hc⟩

/-- The text in the place of the name, in a value that stands for a directive. -/
def nameOf? : Value → Option String
  | .list (name :: _) => name.name?
  | .object fields => (fields.lookup "name").bind Value.name?
  | v => v.name?

/-- What a value has to offer as a directive: a name and the arguments that stand beside it. -/
theorem withArguments_of_ofValue {v : Value} {d : Directive} (h : ofValue v = .ok d) :
    ∃ name args, nameOf? v = some name ∧ withArguments name args = .ok d ∧
      (v.Distinct → Arguments.Distinct args) := by
  -- The cases are those of the definition. Arguments come from an object in the value, or are none.
  unfold ofValue at h
  split at h
  · exact ⟨_, _, rfl, h, fun _ => Arguments.distinct_nil⟩
  · exact ⟨_, _, rfl, h, fun _ => Arguments.distinct_nil⟩
  · cases h
  · cases h
  · split at h
    · rename_i hname
      exact ⟨_, _, hname, h, fun _ => Arguments.distinct_nil⟩
    · cases h
  · split at h
    · rename_i hname
      refine ⟨_, _, hname, h, fun hv => Arguments.distinct_of_object ?_⟩
      rw [Value.Distinct, Value.distinctItems_iff] at hv
      exact hv _ (by simp)
    · cases h
  · split at h
    · cases h
    · cases h
    · rename_i fields _ slot _ hslot
      have hname : nameOf? (.object fields) = slot.name? := by rw [nameOf?, hslot, Option.bind_some]
      split at h
      · cases h
      · rename_i hn _
        exact ⟨_, _, hname.trans hn, h, fun _ => Arguments.distinct_nil⟩
      · rename_i hn hk
        exact ⟨_, _, hname.trans hn, h, fun hv => Arguments.distinct_of_lookup hv hk⟩
      · cases h
  · cases h

/-- From a value of any form, only a well-formed directive can be made. -/
theorem wellFormed_of_ofValue {v : Value} {d : Directive} (hv : v.Distinct)
    (h : ofValue v = .ok d) : d.WellFormed := by
  obtain ⟨name, args, -, hd, ha⟩ := withArguments_of_ofValue h
  exact wellFormed_of_withArguments (ha hv) hd

end Directive

/-- The maps that a caller gives hold each of their keys once. -/
def DirectiveShape.Distinct : DirectiveShape → Prop
  | .name _ => True
  | .call _ args => Arguments.Distinct args
  | .value v => v.Distinct
  | .built shape => shape.Distinct

def VariableChange.Distinct : VariableChange → Prop
  | .default v => v.Distinct
  | .directive shape => shape.Distinct
  | .directives shapes => ∀ s ∈ shapes, s.Distinct

def VariableShape.Distinct : VariableShape → Prop
  | .type _ => True
  | .withDefault _ v => v.Distinct
  | .full _ v shapes => v.Distinct ∧ ∀ s ∈ shapes, s.Distinct
  | .value v => v.Distinct
  | .built shape => shape.Distinct
  | .changed _ changes => ∀ c ∈ changes, c.Distinct

theorem Directive.wellFormed_of_ofShape {shape : DirectiveShape} {d : Directive}
    (hs : shape.Distinct) (h : ofShape shape = .ok d) : d.WellFormed := by
  induction shape with
  | name text => exact wellFormed_of_withArguments Arguments.distinct_nil h
  | call name args => exact wellFormed_of_withArguments hs h
  | value v => exact wellFormed_of_ofValue hs h
  | built shape ih => exact ih hs h

theorem Directive.wellFormed_of_ofShapes {shapes : List DirectiveShape} {ds : List Directive}
    (hs : ∀ s ∈ shapes, s.Distinct) (h : ofShapes shapes = .ok ds) : ∀ d ∈ ds, d.WellFormed :=
  Outcome.forall_of_mapM (fun s hm _ hd => wellFormed_of_ofShape (hs s hm) hd) h

namespace VariableDefinition

/-- A variable definition begins with its type, which is checked at once. -/
theorem new_ok_iff (type : String) (d : VariableDefinition) :
    new type = .ok d ↔ d = { type } ∧ type ≠ "" := by
  unfold new
  by_cases h : type = ""
  · simp [h]
  · rw [if_neg (by simpa using h)]
    simp [h, eq_comm]

theorem wellFormed_of_new {type : String} {d : VariableDefinition} (h : new type = .ok d) :
    d.WellFormed := by
  obtain ⟨rfl, ht⟩ := (new_ok_iff type d).1 h
  exact ⟨ht, by simp, by simp⟩

theorem WellFormed.withDefault {d : VariableDefinition} (h : d.WellFormed) {v : Value}
    (hv : v.Distinct) : WellFormed { d with default := some v } :=
  { h with default := by rintro _ ⟨⟩; exact hv }

theorem WellFormed.withDirectives {d : VariableDefinition} (h : d.WellFormed)
    {ds : List Directive} (hds : ∀ x ∈ ds, x.WellFormed) :
    WellFormed { d with directives := ds } :=
  { h with directives := hds }

/-- No change to a definition can make it malformed. -/
theorem wellFormed_change {d d' : VariableDefinition} (h : d.WellFormed) {c : VariableChange}
    (hc : c.Distinct) (he : d.change c = .ok d') : d'.WellFormed := by
  cases c with
  | default v =>
    cases he
    exact h.withDefault hc
  | directive shape =>
    obtain ⟨x, hx, he⟩ := Outcome.bind_eq_ok.1 he
    cases he
    refine h.withDirectives fun y hy => ?_
    rcases List.mem_append.1 hy with hy | hy
    · exact h.directives y hy
    · rw [List.mem_singleton.1 hy]
      exact Directive.wellFormed_of_ofShape hc hx
  | directives shapes =>
    obtain ⟨ds, hds, he⟩ := Outcome.bind_eq_ok.1 he
    cases he
    exact h.withDirectives (Directive.wellFormed_of_ofShapes hc hds)

theorem wellFormed_changes {d d' : VariableDefinition} (h : d.WellFormed)
    {cs : List VariableChange} (hc : ∀ c ∈ cs, c.Distinct) (he : cs.foldlM change d = .ok d') :
    d'.WellFormed := by
  induction cs generalizing d with
  | nil =>
    cases he
    exact h
  | cons c cs ih =>
    rw [List.forall_mem_cons] at hc
    rw [List.foldlM_cons] at he
    obtain ⟨d₁, hd₁, he⟩ := Outcome.bind_eq_ok.1 he
    exact ih (wellFormed_change h hc.1 hd₁) hc.2 he

/-- What the slot of the type is made into; a slot that is left out holds no type. -/
def ofTypeSlot (shape : Value) : Option Value → Except BuildError VariableDefinition
  | none => new ""
  | some .null => new ""
  | some v =>
    match v.name? with
    | some text => new text
    | none => .error (.unsupportedVariable shape)

def ofDirectivesSlot (shape : Value) : Option Value → Except BuildError (List Directive)
  | none => .ok []
  | some (.list items) => items.mapM Directive.ofValue
  | some _ => .error (.unsupportedVariable shape)

/-- The type is read first, then the directives, and the default cannot fail. -/
theorem ofSlots_eq (shape : Value) (type default directives : Option Value) :
    ofSlots shape type default directives =
      (ofTypeSlot shape type >>= fun d => ofDirectivesSlot shape directives >>= fun ds =>
        pure { d with default, directives := ds }) := by
  unfold ofSlots
  split
  · cases type with
    | none => rfl
    | some v => cases v <;> rfl
  · cases type with
    | none => rfl
    | some v => cases v <;> rfl
  · rename_i hn
    rw [ofDirectivesSlot.eq_3 shape _ hn]
    cases type with
    | none => rfl
    | some v => cases v <;> rfl

theorem wellFormed_of_ofTypeSlot {shape : Value} {type : Option Value} {d : VariableDefinition}
    (h : ofTypeSlot shape type = .ok d) : d.WellFormed := by
  unfold ofTypeSlot at h
  split at h
  · exact wellFormed_of_new h
  · exact wellFormed_of_new h
  · split at h
    · exact wellFormed_of_new h
    · cases h

theorem wellFormed_of_ofDirectivesSlot {shape : Value} {directives : Option Value}
    {ds : List Directive} (hv : ∀ v ∈ directives, v.Distinct)
    (h : ofDirectivesSlot shape directives = .ok ds) : ∀ d ∈ ds, d.WellFormed := by
  unfold ofDirectivesSlot at h
  split at h
  · cases h
    simp
  · rename_i items
    have hi : ∀ v ∈ items, v.Distinct := by
      have hl := hv _ rfl
      rwa [Value.Distinct, Value.distinctItems_iff] at hl
    exact Outcome.forall_of_mapM (fun v hm _ hx => Directive.wellFormed_of_ofValue (hi v hm) hx) h
  · cases h

theorem wellFormed_of_ofSlots {shape : Value} {type default directives : Option Value}
    {d : VariableDefinition} (hv : ∀ v ∈ default, v.Distinct)
    (hds : ∀ v ∈ directives, v.Distinct) (h : ofSlots shape type default directives = .ok d) :
    d.WellFormed := by
  rw [ofSlots_eq] at h
  obtain ⟨d₀, hd₀, h⟩ := Outcome.bind_eq_ok.1 h
  obtain ⟨ds, hd, h⟩ := Outcome.bind_eq_ok.1 h
  cases h
  exact ⟨(wellFormed_of_ofTypeSlot hd₀).typed, hv, wellFormed_of_ofDirectivesSlot hds hd⟩

/-- From a value of any form, only a well-formed definition can be made. -/
theorem wellFormed_of_ofValue {v : Value} {d : VariableDefinition} (hv : v.Distinct)
    (h : ofValue v = .ok d) : d.WellFormed := by
  unfold ofValue at h
  split at h
  · exact wellFormed_of_new h
  · exact wellFormed_of_new h
  · exact wellFormed_of_ofSlots (by simp) (by simp) h
  · rw [Value.Distinct, Value.distinctItems_iff] at hv
    exact wellFormed_of_ofSlots (by rintro _ ⟨⟩; exact hv _ (by simp)) (by simp) h
  · rw [Value.Distinct, Value.distinctItems_iff] at hv
    exact wellFormed_of_ofSlots (by rintro _ ⟨⟩; exact hv _ (by simp))
      (by rintro _ ⟨⟩; exact hv _ (by simp)) h
  · have hf := (Value.distinctFields_iff _).1 (Arguments.distinct_of_object hv).values
    exact wellFormed_of_ofSlots (fun _ hk => hf _ (Keyed.mem_of_lookup hk))
      (fun _ hk => hf _ (Keyed.mem_of_lookup hk)) h
  · cases h

theorem wellFormed_of_ofShape {shape : VariableShape} {d : VariableDefinition}
    (hs : shape.Distinct) (h : ofShape shape = .ok d) : d.WellFormed := by
  induction shape with
  | type text => exact wellFormed_of_new h
  | withDefault type v =>
    obtain ⟨d₀, hd₀, h⟩ := Outcome.bind_eq_ok.1 h
    cases h
    exact (wellFormed_of_new hd₀).withDefault hs
  | full type v shapes =>
    obtain ⟨d₀, hd₀, h⟩ := Outcome.bind_eq_ok.1 h
    obtain ⟨ds, hds, h⟩ := Outcome.bind_eq_ok.1 h
    cases h
    exact ((wellFormed_of_new hd₀).withDefault hs.1).withDirectives
      (Directive.wellFormed_of_ofShapes hs.2 hds)
  | value v => exact wellFormed_of_ofValue hs h
  | built shape ih => exact ih hs h
  | changed type changes =>
    obtain ⟨d₀, hd₀, h⟩ := Outcome.bind_eq_ok.1 h
    exact wellFormed_changes (wellFormed_of_new hd₀) hs h

end VariableDefinition

end QueryDocument
