import QueryDocument.Proofs.Construction.Invariant

/-!
Programs that rebuild a given tree. A block sets what its node carries and then adds the selections
in order, each by a step of its own; a variable is declared behind a dollar sign, so that a name
that begins with one keeps it.
-/
namespace QueryDocument

open Build

namespace Build

variable {σ α ξ : Type}

namespace Action

/-- The block succeeds and takes the one node to the other. -/
structure Leads (as : List (Action σ)) (s t : σ) : Prop where
  failure : (runAll as s).failure = none
  state : (runAll as s).state = t

theorem Leads.nil (s : σ) : Leads [] s s := ⟨rfl, rfl⟩

/-- The first action must not fail, for then the rest would not be run. -/
theorem Leads.cons {a : Action σ} {as : List (Action σ)} {s t : σ} (h : (a s).failure = none)
    (ht : Leads as (a s).state t) : Leads (a :: as) s t := by
  constructor
  · rw [runAll_cons_of_success h]
    exact ht.failure
  · rw [runAll_cons_of_success h]
    exact ht.state

theorem Leads.append {as bs : List (Action σ)} {s t u : σ} (h : Leads as s t)
    (h' : Leads bs t u) : Leads (as ++ bs) s u := by
  induction as generalizing s with
  | nil =>
    obtain ⟨-, rfl⟩ := h
    exact h'
  | cons a as ih =>
    cases hf : (a s).failure with
    | some e =>
      have he := h.failure
      rw [runAll_cons_of_failure hf] at he
      cases he
    | none =>
      obtain ⟨he, hs⟩ := h
      rw [runAll_cons_of_success hf] at he hs
      exact .cons hf (ih ⟨he, hs⟩)

/-- A change leads from the node it is given to the node it leaves. -/
theorem Leads.after [Visible σ] {inside : List Record} {c : Change σ Unit} {s t : σ}
    (h : c s = .ok () t) : Leads [Action.after inside c] s t := by
  refine .cons (Change.failure_of_ok h) ?_
  rw [show (Action.after inside c s).state = t from Change.left_of_ok h]
  exact .nil t

/-- If a child can be built then adding it succeeds. -/
theorem Leads.adopt [Visible σ] {add : α → σ → σ} {child : Child α} {a : α}
    (h : child.result = .ok a) (s : σ) : Leads [Action.adopt add child] s (add a s) :=
  .after ((Change.puts_bind child.result add).of_ok h s)

/-- One action for each of `xs`, where the actions for those before it have left `set` of them. -/
theorem Leads.all {act : ξ → Action σ} (set : List ξ → σ) {xs : List ξ}
    (h : ∀ l x r, l ++ x :: r = xs → Leads [act x] (set l) (set (l ++ [x]))) :
    Leads (xs.map act) (set []) (set xs) := by
  suffices hl : ∀ r l, l ++ r = xs → Leads (r.map act) (set l) (set (l ++ r)) from hl xs [] rfl
  intro r
  induction r with
  | nil =>
    intro l _
    rw [List.append_nil]
    exact .nil _
  | cons x r ih =>
    intro l hl
    have hr := ih (l ++ [x]) (by rw [List.append_assoc]; exact hl)
    rw [List.append_assoc] at hr
    exact (h l x r hl).append hr

end Action

/-- To build a node its block must lead from the new node to one that can be closed. -/
theorem Child.result_of_leads {start : Built σ} {block : List (Action σ)} {close : σ → Built α}
    {s t : σ} {a : α} (hs : start = .ok s) (hb : Action.Leads block s t) (hc : close t = .ok a) :
    (Child.build start block close).result = .ok a := by
  subst hs
  simp only [Child.build, hb.failure, hb.state, hc]

theorem Child.result_map_of_ok {f : σ → α} {c : Child σ} {s : σ} (h : c.result = .ok s) :
    (c.map f).result = .ok (f s) := by
  simp only [Child.map, h, Outcome.map_ok]

end Build

open QueryDocument.Build.Action

def Directive.shape (d : Directive) : DirectiveShape := .call d.name d.arguments

theorem Directive.ofShape_shape {d : Directive} (h : d.WellFormed) : ofShape d.shape = .ok d :=
  withArguments_of_wellFormed h

theorem Directive.ofShapes_shape {ds : List Directive} (h : ∀ d ∈ ds, d.WellFormed) :
    ofShapes (ds.map shape) = .ok ds := by
  rw [ofShapes, List.mapM_map]
  exact Outcome.mapM_ok_self fun d hd => ofShape_shape (h d hd)

theorem Directive.shape_distinct {d : Directive} (h : d.WellFormed) : d.shape.Distinct :=
  h.arguments.toDistinct

theorem Directive.shapes_distinct {ds : List Directive} (h : ∀ d ∈ ds, d.WellFormed) :
    ∀ s ∈ ds.map shape, s.Distinct := by
  intro s hs
  obtain ⟨d, hd, rfl⟩ := List.mem_map.1 hs
  exact shape_distinct (h d hd)

/-- Adding directives one by one is setting all of them, on a node that had none. -/
theorem leads_directives {σ : Type} [Annotated σ] [Visible σ] (set : List Directive → σ)
    (hset : ∀ l d, Annotated.annotate d (set l) = set (l ++ [d])) {ds : List Directive}
    (h : ∀ d ∈ ds, d.WellFormed) :
    Leads (ds.map fun d => Action.ofChange (addDirective d.shape)) (set []) (set ds) := by
  refine .all set fun l d r hl => .after ?_
  have hd := h d (by rw [← hl]; simp)
  rw [(addDirective_puts d.shape).of_ok (Directive.ofShape_shape hd), hset]

mutual
def Field.block : Field → List FieldStep
  | ⟨_, label, args, ds, ss⟩ =>
    label.toList.map FieldStep.label ++ (FieldStep.arguments args ::
      (ds.map fun d => FieldStep.directive d.shape) ++
        (Selection.rebuildAll ss).map FieldStep.select)

def InlineFragment.block : InlineFragment → List FragmentStep
  | ⟨_, ds, ss⟩ =>
    (ds.map fun d => FragmentStep.directive d.shape) ++
      (Selection.rebuildAll ss).map FragmentStep.select

/-- The step that adds the selection. -/
def Selection.rebuild : Selection → SelectionStep
  | .field f => .fieldWith f.name f.block
  | .spread s => .spreadWith s.name (s.directives.map Directive.shape)
  | .inlineFragment f => .inlineFragment f.typeCondition f.block
  | .unknown => .unknown

def Selection.rebuildAll : List Selection → List SelectionStep
  | [] => []
  | s :: ss => s.rebuild :: Selection.rebuildAll ss
end

theorem Selection.rebuildAll_eq_map (ss : List Selection) :
    Selection.rebuildAll ss = ss.map Selection.rebuild := by
  induction ss with
  | nil => rfl
  | cons s ss ih => rw [Selection.rebuildAll, ih, List.map_cons]

/-- What the steps that set up the rest of a node do to it. -/
theorem Field.actions_block (name : String) (label : Option String) (args : Arguments)
    (ds : List Directive) (ss : List Selection) :
    FieldStep.actions (Field.block ⟨name, label, args, ds, ss⟩) =
      (label.toList.map fun text => Action.ofChange (Field.setLabel text)) ++
        (Action.ofChange (Field.setArguments args) ::
          ((ds.map fun d => Action.ofChange (addDirective d.shape)) ++
            ss.map fun s => Action.adopt Selecting.select s.rebuild.child)) := by
  simp only [FieldStep.actions_eq_map, Field.block, Selection.rebuildAll_eq_map, List.map_append,
    List.map_cons, List.map_map, List.cons_append, Function.comp_def, FieldStep.action]

/-- There is no step for the type condition, with which the node begins. -/
theorem InlineFragment.allInPlace_block (type : Option String) (ds : List Directive)
    (ss : List Selection) :
    FragmentStep.allInPlace (InlineFragment.block ⟨type, ds, ss⟩) =
      (ds.map fun d => Action.ofChange (addDirective d.shape)) ++
        ss.map fun s => Action.adopt Selecting.select s.rebuild.child := by
  simp only [FragmentStep.allInPlace_eq_map, InlineFragment.block, Selection.rebuildAll_eq_map,
    List.map_append, List.map_map, Function.comp_def, FragmentStep.inPlace]

/-- Adding selections one by one is setting all of them, if each can be rebuilt. -/
theorem leads_selections {σ : Type} [Selecting σ] [Visible σ] (set : List Selection → σ)
    (hset : ∀ l x, Selecting.select x (set l) = set (l ++ [x])) {ss : List Selection}
    (h : ∀ s ∈ ss, s.rebuild.child.result = .ok s) :
    Leads (ss.map fun s => Action.adopt Selecting.select s.rebuild.child) (set []) (set ss) := by
  refine .all set fun l x r hl => ?_
  rw [← hset]
  exact .adopt (h x (by rw [← hl]; simp)) _

/-- The actions of a block that only adds directives and selections. -/
theorem leads_body {σ : Type} [Annotated σ] [Selecting σ] [Visible σ]
    (set : List Directive → List Selection → σ)
    (hd : ∀ l d, Annotated.annotate d (set l []) = set (l ++ [d]) [])
    (hs : ∀ ds l x, Selecting.select x (set ds l) = set ds (l ++ [x]))
    {ds : List Directive} {ss : List Selection} (hds : ∀ d ∈ ds, d.WellFormed)
    (hss : ∀ s ∈ ss, s.rebuild.child.result = .ok s) :
    Leads ((ds.map fun d => Action.ofChange (addDirective d.shape)) ++
      ss.map fun s => Action.adopt Selecting.select s.rebuild.child) (set [] []) (set ds ss) :=
  (leads_directives (set · []) hd hds).append (leads_selections (set ds) (hs ds) hss)

theorem Field.setLabel_of_ne {text : String} (h : text ≠ "") (f : Field) :
    setLabel text f = .ok () { f with label := some text } :=
  (setLabel_puts text).of_ok (y := ()) (if_neg (by simpa using h)) f

/-- All arguments are set at once, and so keep their order. -/
theorem Field.setArguments_of_wellFormed {args : Arguments} (h : args.WellFormed) (f : Field) :
    setArguments args f = .ok () { f with arguments := args } :=
  (setArguments_puts args).of_ok ((checkArguments_ok_iff args).2 h.named) f

/-- No step is taken for a label that is not there. -/
theorem Field.leads_label (name : String) {label : Option String} (h : label ≠ some "") :
    Leads (label.toList.map fun text => Action.ofChange (Field.setLabel text)) { name }
      { name, label } := by
  cases label with
  | none => exact .nil _
  | some text => exact .after (Field.setLabel_of_ne (fun ht => h (congrArg some ht)) _)

theorem Field.new_of_ne {name : String} (h : name ≠ "") : Field.new name = .ok { name } := by
  rw [Field.new, if_neg (by simpa using h)]

theorem FragmentSpread.new_of_ne {name : String} (h : name ≠ "") :
    FragmentSpread.new name = .ok { name } := by
  rw [FragmentSpread.new, if_neg (by simpa using h)]

theorem FragmentDefinition.new_of_ne {name type : String} (hn : name ≠ "") (ht : type ≠ "") :
    FragmentDefinition.new name type = .ok { name, typeCondition := type } := by
  rw [FragmentDefinition.new, if_neg (by simpa using hn), if_neg (by simpa using ht)]

theorem Operation.new_of_ne {kind : OperationKind} {name : Option String} (h : name ≠ some "") :
    Operation.new kind name = .ok { kind, name } := by
  unfold Operation.new
  split
  · exact absurd rfl h
  · rfl

theorem InlineFragment.new_of_ne {type : Option String} (h : type ≠ some "") :
    InlineFragment.new type = { typeCondition := type } := by
  cases type with
  | none => rfl
  | some text =>
    have ht : (!text.isEmpty) = true := by simpa using h
    rw [InlineFragment.new, Option.filter_some, if_pos ht]

theorem InlineFragment.close_of_ne {f : InlineFragment} (h : f.selections ≠ []) :
    f.close = .ok f := by
  rw [InlineFragment.close, if_neg (by simpa using h)]

/-- A spread is rebuilt in one step, with its directives. -/
theorem FragmentSpread.withDirectives_of_wellFormed {s : FragmentSpread} (h : s.WellFormed) :
    FragmentSpread.withDirectives s.name (s.directives.map Directive.shape) = .ok s := by
  rw [FragmentSpread.withDirectives, new_of_ne h.named, Outcome.ok_bind,
    Directive.ofShapes_shape h.directives]
  rfl

mutual
/-- By recursion over the tree, as the steps for the selections carry the blocks that rebuild
these. -/
theorem Field.child_block : (f : Field) → f.WellFormed →
    (fieldChild f.name (FieldStep.actions f.block)).result = .ok f
  | ⟨name, label, args, ds, ss⟩, h => by
    rw [Field.WellFormed] at h
    obtain ⟨hn, hl, ha, hds, hss⟩ := h
    refine Child.result_of_leads (Field.new_of_ne hn) ?_ rfl
    have hargs : Leads [Action.ofChange (Field.setArguments args)] { name, label }
        { name, label, arguments := args } :=
      .after (Field.setArguments_of_wellFormed ha _)
    have hbody := leads_body (fun ds ss => (⟨name, label, args, ds, ss⟩ : Field))
      (fun _ _ => rfl) (fun _ _ _ => rfl) hds (Selection.child_rebuildAll ss hss)
    rw [Field.actions_block]
    exact (Field.leads_label name hl).append (hargs.append hbody)

theorem InlineFragment.child_block : (f : InlineFragment) → f.WellFormed →
    (inlineFragmentChild f.typeCondition (FragmentStep.allInPlace f.block)).result = .ok f
  | ⟨type, ds, ss⟩, h => by
    rw [InlineFragment.WellFormed] at h
    obtain ⟨ht, hds, hn, hss⟩ := h
    refine Child.result_of_leads (congrArg Except.ok (InlineFragment.new_of_ne ht)) ?_
      (InlineFragment.close_of_ne hn)
    have hbody := leads_body (fun ds ss => (⟨type, ds, ss⟩ : InlineFragment))
      (fun _ _ => rfl) (fun _ _ _ => rfl) hds (Selection.child_rebuildAll ss hss)
    rw [InlineFragment.allInPlace_block]
    exact hbody

/-- An unknown selection is added by the step that adds one. -/
theorem Selection.child_rebuild : (s : Selection) → s.WellFormed → s.rebuild.child.result = .ok s
  | .field f, h => Child.result_map_of_ok (Field.child_block f h)
  | .spread _, h =>
    Child.result_map_of_ok (c := spreadWithChild _ _)
      (FragmentSpread.withDirectives_of_wellFormed h)
  | .inlineFragment f, h => Child.result_map_of_ok (InlineFragment.child_block f h)
  | .unknown, _ => rfl

theorem Selection.child_rebuildAll : (ss : List Selection) → Selection.WellFormedAll ss →
    ∀ s ∈ ss, s.rebuild.child.result = .ok s
  | [], _ => by simp
  | s :: ss, h => List.forall_mem_cons.2
    ⟨Selection.child_rebuild s h.1, Selection.child_rebuildAll ss h.2⟩
end

mutual
/-- The steps are given no maps but those of the field, which hold each key once. -/
theorem Field.block_distinct : (f : Field) → f.WellFormed → FieldStep.DistinctAll f.block
  | ⟨name, label, args, ds, ss⟩, h => by
    rw [Field.WellFormed] at h
    obtain ⟨-, -, ha, hds, hss⟩ := h
    have hs := Selection.rebuildAll_distinct ss hss
    rw [FieldStep.distinctAll_iff, Field.block]
    simp only [List.forall_mem_append, List.forall_mem_cons, List.forall_mem_map]
    exact ⟨fun _ _ => trivial, ⟨ha.toDistinct, fun d hd => Directive.shape_distinct (hds d hd)⟩, hs⟩

theorem InlineFragment.block_distinct : (f : InlineFragment) → f.WellFormed →
    FragmentStep.DistinctAll f.block
  | ⟨type, ds, ss⟩, h => by
    rw [InlineFragment.WellFormed] at h
    obtain ⟨-, hds, -, hss⟩ := h
    have hs := Selection.rebuildAll_distinct ss hss
    rw [FragmentStep.distinctAll_iff, InlineFragment.block]
    simp only [List.forall_mem_append, List.forall_mem_map]
    exact ⟨fun d hd => Directive.shape_distinct (hds d hd), hs⟩

theorem Selection.rebuild_distinct : (s : Selection) → s.WellFormed → s.rebuild.Distinct
  | .field f, h => Field.block_distinct f h
  | .spread _, h => Directive.shapes_distinct h.directives
  | .inlineFragment f, h => InlineFragment.block_distinct f h
  | .unknown, _ => trivial

theorem Selection.rebuildAll_distinct : (ss : List Selection) → Selection.WellFormedAll ss →
    ∀ step ∈ Selection.rebuildAll ss, step.Distinct
  | [], _ => by simp [Selection.rebuildAll]
  | s :: ss, h => List.forall_mem_cons.2
    ⟨Selection.rebuild_distinct s h.1, Selection.rebuildAll_distinct ss h.2⟩
end

/-- A definition without a default is changed after its type has been set. -/
def VariableDefinition.shape (d : VariableDefinition) : VariableShape :=
  match d.default with
  | none => .changed d.type [.directives (d.directives.map Directive.shape)]
  | some v => .full d.type v (d.directives.map Directive.shape)

theorem VariableDefinition.ofShape_shape {d : VariableDefinition} (h : d.WellFormed) :
    ofShape d.shape = .ok d := by
  obtain ⟨type, default, ds⟩ := d
  have hn : new type = .ok { type } := (new_ok_iff _ _).2 ⟨rfl, h.typed⟩
  have hds := Directive.ofShapes_shape h.directives
  cases default with
  | none =>
    simp only [shape, ofShape, hn, Outcome.ok_bind, List.foldlM_cons, change, hds]
    rfl
  | some v =>
    simp only [shape, ofShape, hn, Outcome.ok_bind, hds]
    rfl

theorem VariableDefinition.shape_distinct {d : VariableDefinition} (h : d.WellFormed) :
    d.shape.Distinct := by
  obtain ⟨type, default, ds⟩ := d
  have hds := Directive.shapes_distinct h.directives
  cases default with
  | none => simpa [shape, VariableShape.Distinct, VariableChange.Distinct] using hds
  | some v => exact ⟨h.default v rfl, hds⟩

/-- The dollar sign in front is the one that is dropped. -/
theorem bareName_dollar (name : String) : bareName ("$" ++ name) = name := by
  have h : ("$" ++ name).toList = '$' :: name.toList := by
    rw [String.toList_append]
    rfl
  unfold bareName
  rw [h]
  exact String.ofList_toList

def Operation.block (o : Operation) : List OperationStep :=
  (o.declared.map fun d => .declare ("$" ++ d.1) d.2.shape) ++
    ((o.directives.map fun d => .directive d.shape) ++
      (Selection.rebuildAll o.selections).map .select)

theorem Operation.actions_block (o : Operation) :
    o.block.map OperationStep.action =
      (o.declared.map fun d =>
        Action.ofChange (Operation.addVariable ("$" ++ d.1) d.2.shape)) ++
        ((o.directives.map fun d => Action.ofChange (addDirective d.shape)) ++
          o.selections.map fun s => Action.adopt Selecting.select s.rebuild.child) := by
  simp only [Operation.block, Selection.rebuildAll_eq_map, List.map_append, List.map_map,
    Function.comp_def, OperationStep.action]

/-- A new variable comes last. -/
theorem Operation.addVariable_of_notMem {o : Operation} {name : String} {d : VariableDefinition}
    (hn : name ≠ "") (hd : d.WellFormed) (hk : name ∉ Keyed.keys o.declared) :
    addVariable ("$" ++ name) d.shape o =
      .ok () { o with declared := o.declared ++ [(name, d)] } := by
  have hdeclared : declaration ("$" ++ name) d.shape = .ok d := by
    rw [declaration, bareName_dollar, if_neg hn, VariableDefinition.ofShape_shape hd,
      Outcome.mapError_ok]
  rw [(addVariable_puts ("$" ++ name) d.shape).of_ok hdeclared, insertVariable, bareName_dollar,
    Keyed.insert_of_notMem hk]

/-- In the order of the map each name is new when it comes up, so that the map is made again
entry by entry. -/
theorem Operation.leads_declared {kind : OperationKind} {name : Option String}
    {ds : Keyed VariableDefinition} (hd : Keyed.Distinct ds) (hn : ∀ k ∈ Keyed.keys ds, k ≠ "")
    (hw : ∀ d ∈ ds, d.2.WellFormed) :
    Leads (ds.map fun d => Action.ofChange (Operation.addVariable ("$" ++ d.1) d.2.shape))
      { kind, name } { kind, name, declared := ds } := by
  refine .all (fun declared => ({ kind, name, declared } : Operation)) fun l d r hl => ?_
  subst hl
  have hm : d ∈ l ++ d :: r := by simp
  -- The keys before this one differ from it, so that it is added at the end.
  have hk : d.1 ∉ Keyed.keys l := hd.notMem_of_append
  exact .after (addVariable_of_notMem (hn _ (List.mem_map_of_mem hm)) (hw d hm) hk)

/-- Variables, directives and selections are set one after the other, and none of them touches
the others. -/
theorem Operation.child_block {o : Operation} (h : o.WellFormed) :
    (operationChild o.kind o.name o.block).result = .ok o := by
  obtain ⟨kind, name, declared, ds, ss⟩ := o
  refine Child.result_of_leads (Operation.new_of_ne h.named) ?_ rfl
  have hbody := leads_body (fun ds ss => (⟨kind, name, declared, ds, ss⟩ : Operation))
    (fun _ _ => rfl) (fun _ _ _ => rfl) h.directives
    (Selection.child_rebuildAll ss ((Selection.wellFormedAll_iff ss).2 h.selections))
  rw [Operation.actions_block]
  exact (leads_declared h.distinct h.variablesNamed h.declarations).append hbody

theorem Operation.block_distinct {o : Operation} (h : o.WellFormed) :
    ∀ step ∈ o.block, step.Distinct := by
  have hs := Selection.rebuildAll_distinct _ ((Selection.wellFormedAll_iff _).2 h.selections)
  simp only [Operation.block, List.forall_mem_append, List.forall_mem_map]
  exact ⟨fun d hd => VariableDefinition.shape_distinct (h.declarations d hd),
    fun d hd => Directive.shape_distinct (h.directives d hd), hs⟩

def FragmentDefinition.block (f : FragmentDefinition) : List FragmentStep :=
  (f.directives.map fun d => .directive d.shape) ++ (Selection.rebuildAll f.selections).map .select

theorem FragmentDefinition.child_block {f : FragmentDefinition} (h : f.WellFormed) :
    (fragmentChild f.name f.typeCondition f.block).result = .ok f := by
  obtain ⟨name, type, ds, ss⟩ := f
  refine Child.result_of_leads (FragmentDefinition.new_of_ne h.named h.typed) ?_ rfl
  have hbody := leads_body (fun ds ss => (⟨name, type, ds, ss⟩ : FragmentDefinition))
    (fun _ _ => rfl) (fun _ _ _ => rfl) h.directives
    (Selection.child_rebuildAll ss ((Selection.wellFormedAll_iff ss).2 h.selections))
  simpa only [FragmentDefinition.block, Selection.rebuildAll_eq_map, List.map_append, List.map_map,
    Function.comp_def, FragmentStep.defining] using hbody

theorem FragmentDefinition.block_distinct {f : FragmentDefinition} (h : f.WellFormed) :
    FragmentStep.DistinctAll f.block := by
  have hs := Selection.rebuildAll_distinct _ ((Selection.wellFormedAll_iff _).2 h.selections)
  rw [FragmentStep.distinctAll_iff]
  simp only [FragmentDefinition.block, List.forall_mem_append, List.forall_mem_map]
  exact ⟨fun d hd => Directive.shape_distinct (h.directives d hd), hs⟩

/-- The step that adds the definition. -/
def Definition.rebuild : Definition → DocumentStep
  | .fragment f => .fragment f.name f.typeCondition f.block
  | .operation o => .operation o.kind o.name o.block
  | .unknown => .unknown

/-- One step of the document adds the definition, also an unknown one. -/
theorem Definition.leads_rebuild {d : Definition} (h : d.WellFormed) (doc : Document) :
    Leads [d.rebuild.action] doc (doc.add d) := by
  cases d with
  | fragment f => exact .adopt (Child.result_map_of_ok (FragmentDefinition.child_block h)) doc
  | operation o => exact .adopt (Child.result_map_of_ok (Operation.child_block h)) doc
  | unknown => exact .adopt rfl doc

theorem Definition.rebuild_distinct {d : Definition} (h : d.WellFormed) : d.rebuild.Distinct := by
  cases d with
  | fragment f => exact FragmentDefinition.block_distinct h
  | operation o => exact Operation.block_distinct h
  | unknown => trivial

/-- The steps for the definitions lead from the empty document to the given one. -/
theorem Document.child_rebuild {d : Document} (h : d.WellFormed) :
    (documentChild (d.definitions.map Definition.rebuild)).result = .ok d := by
  obtain ⟨ds⟩ := d
  refine Child.result_of_leads (s := ({} : Document)) rfl ?_ rfl
  rw [List.map_map]
  refine .all (fun ds => (⟨ds⟩ : Document)) fun l x r hl => ?_
  exact Definition.leads_rebuild (h x (by rw [← hl]; simp)) _

def Node.rebuild : Node → Program
  | .document d => .document (d.definitions.map Definition.rebuild)
  | .field f => .selection (.field f.name f.block)
  | .fragmentDefinition f => .definition (.fragment f.name f.typeCondition f.block)
  | .fragmentSpread s => .selection (.spreadWith s.name (s.directives.map Directive.shape))
  | .inlineFragment f => .selection (.inlineFragment f.typeCondition f.block)
  | .operation o => .definition (.operation o.kind o.name o.block)

theorem Node.child_rebuild {node : Node} (h : node.WellFormed) :
    node.rebuild.child.result = .ok node := by
  cases node with
  | document d => exact Child.result_map_of_ok (Document.child_rebuild h)
  | field f => exact Child.result_map_of_ok (Field.child_block f h)
  | fragmentDefinition f => exact Child.result_map_of_ok (FragmentDefinition.child_block h)
  | fragmentSpread s =>
    exact Child.result_map_of_ok (c := spreadWithChild _ _)
      (FragmentSpread.withDirectives_of_wellFormed h)
  | inlineFragment f => exact Child.result_map_of_ok (InlineFragment.child_block f h)
  | operation o => exact Child.result_map_of_ok (Operation.child_block h)

/-- The program that rebuilds a node is one that a caller could have written. -/
theorem Node.rebuild_distinct {node : Node} (h : node.WellFormed) : node.rebuild.Distinct := by
  cases node with
  | document d =>
    intro step hs
    obtain ⟨x, hx, rfl⟩ := List.mem_map.1 hs
    exact Definition.rebuild_distinct (h x hx)
  | field f => exact Field.block_distinct f h
  | fragmentDefinition f => exact FragmentDefinition.block_distinct h
  | fragmentSpread s => exact Directive.shapes_distinct h.directives
  | inlineFragment f => exact InlineFragment.block_distinct f h
  | operation o => exact Operation.block_distinct h

end QueryDocument
