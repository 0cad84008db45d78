import Mathlib.Data.List.Forall2
import QueryDocument.Proofs.Construction.Invariant
import QueryDocument.Proofs.Construction.Settled
import QueryDocument.Render.Value

/-!
What a series of declarations leaves in an operation, where any of them may fail. The machine that
they are compared with is a list: a definition goes to the place of its key or else to the end, and
a call that declares all variables anew starts from the empty list.
-/
namespace QueryDocument

namespace Outcome

variable {ε α β : Type}

/-- The results up to the first failure, and that failure. -/
def untilFailure : List (Except ε α) → List α × Option ε
  | [] => ([], none)
  | .ok a :: xs => (a :: (untilFailure xs).1, (untilFailure xs).2)
  | .error e :: _ => ([], some e)

/-- What is kept was a success, so it passed every check. -/
theorem ok_mem_of_mem_untilFailure {a : α} {xs : List (Except ε α)}
    (h : a ∈ (untilFailure xs).1) : .ok a ∈ xs := by
  fun_induction untilFailure xs with
  | case1 => cases h
  | case2 b xs ih =>
    rcases List.mem_cons.1 h with rfl | h
    · exact List.mem_cons_self
    · exact List.mem_cons_of_mem _ (ih h)
  | case3 => cases h

theorem forall₂_of_mapM {f : α → Except ε β} {xs : List α} {ys : List β}
    (h : xs.mapM f = .ok ys) : List.Forall₂ (fun x y => f x = .ok y) xs ys := by
  induction xs generalizing ys with
  | nil =>
    cases h
    exact .nil
  | cons x xs ih =>
    rw [List.mapM_cons] at h
    obtain ⟨y, hy, h⟩ := bind_eq_ok.1 h
    obtain ⟨zs, hzs, h⟩ := bind_eq_ok.1 h
    cases h
    exact .cons hy (ih hzs)

theorem mapM_of_forall₂ {f : α → Except ε β} {xs : List α} {ys : List β}
    (h : List.Forall₂ (fun x y => f x = .ok y) xs ys) : xs.mapM f = .ok ys := by
  induction h with
  | nil => rfl
  | cons hx _ ih =>
    rw [List.mapM_cons, hx, ih]
    rfl

end Outcome

open Outcome

namespace Build

/-- A call that declares variables: one more, or all of them anew. -/
inductive Declaration where
  | one (name : String) (shape : VariableShape)
  | all (ds : List (String × VariableShape))

namespace Declaration

def step : Declaration → OperationStep
  | .one name shape => .declare name shape
  | .all ds => .declareAll ds

/-- The call drops the variables that there are. -/
def clears : Declaration → Bool
  | .one _ _ => false
  | .all _ => true

def pairs : Declaration → List (String × VariableShape)
  | .one name shape => [(name, shape)]
  | .all ds => ds

/-- The name without the dollar sign that it may begin with. -/
def key (name : String) : String :=
  String.ofList (name.toList.drop (if name.toList.head? = some '$' then 1 else 0))

/-- The definition that is written for a pair, with its key, or why there is none. -/
def entry (p : String × VariableShape) : Built (String × VariableDefinition) :=
  if key p.1 = "" then .error (.missingName .variableName)
  else (key p.1, ·) <$> (VariableDefinition.ofShape p.2).mapError (Operation.typeFault (key p.1))

/-- What the call writes before one of its pairs fails. -/
def writes (c : Declaration) : List (String × VariableDefinition) :=
  (untilFailure (c.pairs.map entry)).1

def fault (c : Declaration) : Option BuildError := (untilFailure (c.pairs.map entry)).2

/-- The variables after the call. -/
def after (ds : Keyed VariableDefinition) (c : Declaration) : Keyed VariableDefinition :=
  c.writes.foldl (fun ds e => Keyed.put e ds) (if c.clears then [] else ds)

/-- The calls from the last one on that drops what there is. -/
def current : List Declaration → List Declaration
  | [] => []
  | c :: calls => if calls.any clears then current calls else c :: calls

/-- All that has been written since the variables were dropped for the last time. -/
def standing (ds : Keyed VariableDefinition) (calls : List Declaration) :
    List (String × VariableDefinition) :=
  (if calls.any clears then [] else ds) ++ (current calls).flatMap writes

theorem key_eq_bareName (name : String) : key name = bareName name := by
  unfold key
  by_cases hh : name.toList.head? = some '$'
  · obtain ⟨cs, hcs⟩ := List.head?_eq_some_iff.1 hh
    rw [if_pos hh, bareName, hcs, List.drop_one, List.tail_cons]
    rfl
  · rw [if_neg hh, bareName_of_plain hh, List.drop_zero, String.ofList_toList]

/-- The key is the name as the operation keeps it, and the definition is what is found out
there. -/
theorem entry_eq (p : String × VariableShape) :
    entry p = (bareName p.1, ·) <$> Operation.declaration p.1 p.2 := by
  rw [entry, key_eq_bareName, Operation.declaration]
  split <;> rfl

/-- On the list of variables, declaring one is putting its entry. -/
theorem addVariable_puts_entry (p : String × VariableShape) :
    (Operation.addVariable p.1 p.2).Puts (entry p)
      fun e o => { o with declared := Keyed.put e o.declared } := by
  rw [entry_eq]
  refine (Operation.addVariable_puts p.1 p.2).map fun d o => ?_
  exact congrArg (fun ds => { o with declared := ds }) (Keyed.insert_eq_put (bareName p.1, d) _)

/-- The pairs before the first that fails are all put, and none after it is. -/
theorem left_addVariables (ds : List (String × VariableShape)) (o : Operation) :
    (Operation.addVariables ds).left o = { o with
      declared :=
        (untilFailure (ds.map entry)).1.foldl (fun ds e => Keyed.put e ds) o.declared } := by
  induction ds generalizing o with
  | nil => rfl
  | cons p ds ih =>
    have hp := addVariable_puts_entry p
    rw [Operation.addVariables_cons, Change.left_andThen, List.map_cons]
    cases he : entry p with
    | error e =>
      rw [hp.failure_of_error he, if_neg nofun, hp.left_of_error he]
      rfl
    | ok e =>
      rw [hp.failure_of_ok he, if_pos rfl, hp.left_of_ok he, ih]
      rfl

theorem failure_addVariables (ds : List (String × VariableShape)) (o : Operation) :
    (Operation.addVariables ds).failure o = (untilFailure (ds.map entry)).2 := by
  induction ds generalizing o with
  | nil => rfl
  | cons p ds ih =>
    have hp := addVariable_puts_entry p
    rw [Operation.addVariables_cons, Change.failure_andThen, List.map_cons, ih]
    cases he : entry p with
    | error e => rw [hp.failure_of_error he, untilFailure, Option.some_or]
    | ok e => rw [hp.failure_of_ok he, untilFailure, Option.none_or]

def change : Declaration → Change Operation Unit
  | .one name shape => Operation.addVariable name shape
  | .all ds => Operation.setVariables ds

theorem action_step (c : Declaration) : c.step.action = Action.ofChange c.change := by
  cases c <;> rfl

/-- A single declaration is a list of one, which drops nothing. -/
theorem left_change (c : Declaration) (o : Operation) :
    c.change.left o = { o with declared := c.after o.declared } := by
  cases c with
  | one name shape =>
    have hone := left_addVariables [(name, shape)] o
    rwa [Operation.addVariables, Change.left_forM_singleton] at hone
  | all ds =>
    rw [change, Operation.left_setVariables, left_addVariables]
    rfl

theorem failure_change (c : Declaration) (o : Operation) : c.change.failure o = c.fault := by
  cases c with
  | one name shape =>
    have hone := failure_addVariables [(name, shape)] o
    rwa [Operation.addVariables, Change.failure_forM_singleton] at hone
  | all ds => rw [change, Operation.failure_setVariables, failure_addVariables, fault, pairs]

end Declaration

/-- How the step failed, though it may have stood in an attempt. -/
def Record.failure? : Record → Option BuildError
  | .look _ => none
  | .change _ _ failure => failure

namespace Declaration

/-- A call that fails does not keep the later ones from being made, and what it has written
stays. -/
theorem runAll_attempts (calls : List Declaration) (o : Operation) :
    let r := Action.runAll (calls.map fun c => (OperationStep.attempt c.step).action) o
    r.failure = none ∧ r.records.map Record.failure? = calls.map fault ∧
      r.state = { o with declared := calls.foldl after o.declared } := by
  induction calls generalizing o with
  | nil => exact ⟨rfl, rfl, rfl⟩
  | cons c calls ih =>
    have hstep : (OperationStep.attempt c.step).action o =
        ⟨{ o with declared := c.after o.declared }, none,
          .change [] (.operation { o with declared := c.after o.declared }) c.fault⟩ := by
      rw [OperationStep.action, Action.attempt, action_step, Action.ofChange, Action.after,
        left_change, failure_change]
      rfl
    have hfailure : ((OperationStep.attempt c.step).action o).failure = none := by rw [hstep]
    obtain ⟨hnone, hrecords, hstate⟩ := ih { o with declared := c.after o.declared }
    simp only [List.map_cons, Action.runAll_cons_of_success hfailure, hstep]
    exact ⟨hnone, congrArg (c.fault :: ·) hrecords, hstate⟩

/-- To know the list after a call it is enough to know what was written, in order, since it was
last dropped. -/
theorem after_ofPairs (ws : List (String × VariableDefinition)) (c : Declaration) :
    after (Keyed.ofPairs ws) c = Keyed.ofPairs ((if c.clears then [] else ws) ++ c.writes) := by
  unfold after
  rw [Keyed.ofPairs_append]
  simp only [Keyed.insert_eq_put]
  cases c.clears <;> rfl

theorem current_of_keeping {calls : List Declaration} (h : calls.any clears = false) :
    current calls = calls := by
  cases calls with
  | nil => rfl
  | cons c calls =>
    rw [List.any_cons, Bool.or_eq_false_iff] at h
    rw [current, h.2]
    rfl

/-- A call adds what it writes to what stands, and drops what stood if it declares anew. -/
theorem standing_cons (ds : Keyed VariableDefinition) (c : Declaration) (calls : List Declaration) :
    standing ds (c :: calls) = standing ((if c.clears then [] else ds) ++ c.writes) calls := by
  unfold standing
  rw [current, List.any_cons]
  by_cases hc : calls.any clears
  · simp [hc]
  · rw [Bool.not_eq_true] at hc
    simp [hc, current_of_keeping hc]

/-- What stands is all that the machine has to know of the calls that were made. -/
theorem foldl_after (calls : List Declaration) (ws : List (String × VariableDefinition)) :
    calls.foldl after (Keyed.ofPairs ws) = Keyed.ofPairs (standing ws calls) := by
  induction calls generalizing ws with
  | nil =>
    have hws : standing ws [] = ws := List.append_nil ws
    rw [hws, List.foldl_nil]
  | cons c calls ih => rw [List.foldl_cons, after_ofPairs, ih, standing_cons]

theorem named_of_mem_writes {c : Declaration} {e : String × VariableDefinition}
    (h : e ∈ c.writes) : e.1 ≠ "" := by
  obtain ⟨p, -, hp⟩ := List.mem_map.1 (ok_mem_of_mem_untilFailure h)
  unfold entry at hp
  split at hp
  · cases hp
  · rename_i hkey
    obtain ⟨d, -, rfl⟩ := map_eq_ok.1 hp
    exact hkey

theorem named_of_mem_standing {ds : Keyed VariableDefinition}
    (hds : ∀ k ∈ Keyed.keys ds, k ≠ "") {calls : List Declaration} :
    ∀ k ∈ Keyed.keys (standing ds calls), k ≠ "" := by
  intro k hk
  obtain ⟨e, he, rfl⟩ := List.mem_map.1 hk
  rcases List.mem_append.1 he with he | he
  · split at he
    · cases he
    · exact hds e.1 (List.mem_map_of_mem he)
  · obtain ⟨c, -, he⟩ := List.mem_flatMap.1 he
    exact named_of_mem_writes he

/-- The variables in writing: every key that was written has one place in the list, that of its
first write, where it stands with the definition that was written last. -/
inductive Lists (ws : List (String × VariableDefinition)) : Option String → Prop where
  | none (h : ws = []) : Lists ws none
  | some (hne : ws ≠ []) (texts : List String)
    (h : List.Forall₂ (fun k text => ∃ d more, ws.reverse.lookup k = some d ∧
      d.render k = .ok text ∧ text = "$" ++ k ++ ": " ++ d.type ++ more)
      (Keyed.keys ws).eraseDups texts) :
    Lists ws (some ("(" ++ ", ".intercalate texts ++ ")"))

/-- The type comes before anything that a variable may do without. -/
theorem render_begins {name : String} {d : VariableDefinition} {text : String}
    (h : d.render name = .ok text) : ∃ more, text = "$" ++ name ++ ": " ++ d.type ++ more := by
  obtain ⟨default, -, h⟩ := bind_eq_ok.1 h
  obtain ⟨directives, -, h⟩ := bind_eq_ok.1 h
  cases h
  cases hparts : default ++ directives.toList with
  | nil => exact ⟨"", by simp [hparts, String.intercalate_cons_cons, String.append_assoc]⟩
  | cons part parts =>
    refine ⟨" " ++ " ".intercalate (part :: parts), ?_⟩
    simp [hparts, String.intercalate_cons_cons, String.append_assoc]

/-- Each key is written once, and with the last of its definitions. -/
theorem lists_of_render {ws : List (String × VariableDefinition)} {text : Option String}
    (h : renderVariables (Keyed.settled ws) = .ok text) : Lists ws text := by
  unfold renderVariables at h
  split at h
  · rename_i hempty
    cases h
    exact .none (Keyed.settled_eq_nil_iff.1 (List.isEmpty_iff.1 hempty))
  · rename_i hfull
    obtain ⟨texts, htexts, h⟩ := bind_eq_ok.1 h
    cases h
    refine .some (fun hws => hfull (by rw [hws]; rfl)) texts ?_
    rw [← Keyed.keys_settled, Keyed.keys, List.forall₂_map_left_iff]
    have hlast : ∀ d ∈ Keyed.settled ws, ws.reverse.lookup d.1 = some d.2 := fun d =>
      Keyed.mem_settled_iff.1
    have hboth := (List.forall₂_and_left _ _).2 ⟨hlast, forall₂_of_mapM htexts⟩
    refine hboth.imp fun d t ⟨hd, ht⟩ => ?_
    obtain ⟨more, hmore⟩ := render_begins ht
    exact ⟨d.2, more, hd, ht, hmore⟩

/-- A definition that was replaced does not matter. -/
theorem exists_render_iff (ws : List (String × VariableDefinition)) :
    (∃ text, renderVariables (Keyed.settled ws) = .ok text) ↔
      ∀ k d, ws.reverse.lookup k = some d → ∃ text, d.render k = .ok text := by
  have hmem : (∀ e ∈ Keyed.settled ws, ∃ text, e.2.render e.1 = .ok text) ↔
      ∀ k d, ws.reverse.lookup k = some d → ∃ text, d.render k = .ok text :=
    ⟨fun h k d hd => h (k, d) (Keyed.mem_settled_iff.2 hd),
      fun h e he => h e.1 e.2 (Keyed.mem_settled_iff.1 he)⟩
  rw [← hmem]
  unfold renderVariables
  split
  · rename_i hempty
    rw [List.isEmpty_iff.1 hempty]
    exact ⟨fun _ => by simp, fun _ => ⟨none, rfl⟩⟩
  · rw [← exists_mapM_iff]
    constructor
    · rintro ⟨text, h⟩
      obtain ⟨texts, htexts, -⟩ := bind_eq_ok.1 h
      exact ⟨texts, htexts⟩
    · rintro ⟨texts, htexts⟩
      exact ⟨_, by rw [htexts]; rfl⟩

/-- In any series of calls, of which any may fail: the variables are those of the machine, and a
call fails as its pairs tell. What is left is told by what was written since the variables were
dropped for the last time. -/
theorem last_write_stands (calls : List Declaration) (o : Operation) :
    let r := Action.runAll (calls.map fun c => (OperationStep.attempt c.step).action) o
    (r.failure = none ∧ r.records.map Record.failure? = calls.map fault ∧
      r.state = { o with declared := calls.foldl after o.declared }) ∧
    (Keyed.Distinct o.declared →
      r.state.declared = Keyed.settled (standing o.declared calls) ∧
      Keyed.Distinct r.state.declared ∧
      ((∀ k ∈ Keyed.keys o.declared, k ≠ "") → ∀ k ∈ Keyed.keys r.state.declared, k ≠ "") ∧
      ((∃ text, renderVariables r.state.declared = .ok text) ↔
        ∀ k d, (standing o.declared calls).reverse.lookup k = some d →
          ∃ text, d.render k = .ok text) ∧
      ∀ text, renderVariables r.state.declared = .ok text →
        Lists (standing o.declared calls) text) := by
  -- The run first, and then what it comes to if the variables are a map.
  have hrun := runAll_attempts calls o
  refine ⟨hrun, fun hdistinct => ?_⟩
  have hdeclared : calls.foldl after o.declared = Keyed.settled (standing o.declared calls) := by
    rw [← Keyed.ofPairs_eq_settled, ← foldl_after, Keyed.ofPairs_of_distinct hdistinct]
  simp only [hrun.2.2, hdeclared]
  refine ⟨trivial, ?_, fun hnamed k hk => ?_, exists_render_iff _, fun _ => lists_of_render⟩
  · rw [← Keyed.ofPairs_eq_settled]
    exact Keyed.distinct_ofPairs _
  · rw [Keyed.keys_settled, List.mem_eraseDups] at hk
    exact named_of_mem_standing hnamed k hk

/-- Two spellings of one key, a list that fails in its midst, and declarations of the same keys
after it, one of which fails. -/
def redeclaring : List Declaration :=
  [.one "$a" (.type "Int"), .one "b" (.type "Int"),
    .all [("x", .type "Int"), ("$y", .type "Int"), ("$x", .withDefault "Float" .null),
      ("$", .type "Int"), ("z", .type "Int")],
    .one "$y" (.type ""), .one "$$x" (.type "ID"), .one "$y" (.type "String")]

theorem last_write_stands_of_redeclaring :
    let o : Operation := { kind := .query, name := none, declared := [("a", { type := "ID" })] }
    let r := Action.runAll (redeclaring.map fun c => (OperationStep.attempt c.step).action) o
    Keyed.Distinct o.declared ∧ (∀ k ∈ Keyed.keys o.declared, k ≠ "") ∧
      Keyed.keys r.state.declared = ["x", "y", "$x"] ∧
      Keyed.Distinct r.state.declared ∧ (∀ k ∈ Keyed.keys r.state.declared, k ≠ "") ∧
      redeclaring.map fault = [none, none, some (.missingName .variableName),
        some (.missingType (.ofVariable "y")), none, none] ∧
      Lists (standing o.declared redeclaring)
        (some "($x: Float = null, $y: String, $$x: ID)") := by
  intro o r
  have hdistinct : Keyed.Distinct o.declared := List.nodup_cons.2 ⟨by simp, List.nodup_nil⟩
  have hnamed : ∀ k ∈ Keyed.keys o.declared, k ≠ "" := by decide
  obtain ⟨-, hall⟩ := last_write_stands redeclaring o
  obtain ⟨-, hdistinct', hnamed', -, hlists⟩ := hall hdistinct
  have hstate : r.state.declared = [("x", { type := "Float", default := some .null }),
      ("y", { type := "String" }), ("$x", { type := "ID" })] := rfl
  have htext : renderVariables r.state.declared =
      .ok (some "($x: Float = null, $y: String, $$x: ID)") := by
    rw [hstate]
    rfl
  exact ⟨hdistinct, hnamed, by rw [hstate]; rfl, hdistinct', hnamed' hnamed, rfl,
    hlists _ htext⟩

end Declaration
end Build
end QueryDocument
