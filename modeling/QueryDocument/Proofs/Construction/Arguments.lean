import QueryDocument.Proofs.Construction.Declared

/-!
What a series of calls leaves in the arguments of a field, where any of them may fail, and what a
list of pairs leaves in an object. Both are told by a log: a pair that is given goes to its end, a
whole map that is given takes its place, and a call that fails leaves it. Each name has one entry in
the map, in the order of the log and with the value that was logged last.
-/
namespace QueryDocument

open Outcome

namespace Value

/-- The entries in writing: every key that was written has one place in the list, that of its first
write, where it stands with the value that was written last. -/
def Lists (constant : Bool) (ws : List (String × Value)) (texts : List String) : Prop :=
  List.Forall₂ (fun k text => ∃ v inside, ws.reverse.lookup k = some v ∧
    v.render constant = .ok inside ∧ text = k ++ ": " ++ inside) (Keyed.keys ws).eraseDups texts

/-- Each field is written as its key, as it is, and the text of its value. -/
theorem renderFields_eq_ok_iff {constant : Bool} {fs : List (String × Value)}
    {texts : List String} :
    renderFields constant fs = .ok texts ↔ List.Forall₂ (fun f text => ∃ inside,
      f.2.render constant = .ok inside ∧ text = f.1 ++ ": " ++ inside) fs texts := by
  have hentry (f : String × Value) (text : String) :
      (f.1 ++ ": " ++ ·) <$> f.2.render constant = .ok text ↔
        ∃ inside, f.2.render constant = .ok inside ∧ text = f.1 ++ ": " ++ inside := by
    rw [map_eq_ok]
    exact exists_congr fun inside => and_congr_right fun _ => eq_comm
  simp only [renderFields_eq_mapM, ← hentry]
  exact ⟨forall₂_of_mapM, mapM_of_forall₂⟩

/-- The entries that the writes leave are written as they are logged. -/
theorem renderFields_settled_iff {constant : Bool} {ws : List (String × Value)}
    {texts : List String} :
    renderFields constant (Keyed.settled ws) = .ok texts ↔ Lists constant ws texts := by
  rw [renderFields_eq_ok_iff, Lists, ← Keyed.keys_settled, Keyed.keys, List.forall₂_map_left_iff]
  have hlast : ∀ e ∈ Keyed.settled ws, ws.reverse.lookup e.1 = some e.2 := fun e =>
    Keyed.mem_settled_iff.1
  constructor
  · intro h
    refine ((List.forall₂_and_left _ _).2 ⟨hlast, h⟩).imp fun e text he => ?_
    obtain ⟨hv, inside, hi, rfl⟩ := he
    exact ⟨e.2, inside, hv, hi, rfl⟩
  · intro h
    refine ((List.forall₂_and_left _ _).2 ⟨hlast, h⟩).imp fun e text he => ?_
    obtain ⟨hv, v, inside, hv', hi, rfl⟩ := he
    obtain rfl := Option.some.inj (hv.symm.trans hv')
    exact ⟨inside, hi, rfl⟩

/-- An object made of pairs is written with each key once, where it was given first, and with
the value that it was given last. -/
theorem render_ofPairs_iff {constant : Bool} {ps : List (String × Value)} {text : String} :
    (ofPairs ps).render constant = .ok text ↔
      ∃ texts, Lists constant ps texts ∧ text = "\x7b" ++ ", ".intercalate texts ++ "\x7d" := by
  rw [ofPairs, Keyed.ofPairs_eq_settled, render, bind_eq_ok]
  refine exists_congr fun texts => and_congr renderFields_settled_iff ?_
  rw [pure_eq, Except.ok.injEq, eq_comm]

end Value

/-- Without arguments there are no parentheses either. -/
theorem renderArguments_settled_iff {constant : Bool} {ws : List (String × Value)}
    {text : String} :
    renderArguments constant (Keyed.settled ws) = .ok text ↔ (ws = [] ∧ text = "") ∨
      (ws ≠ [] ∧ ∃ texts, Value.Lists constant ws texts ∧
        text = "(" ++ ", ".intercalate texts ++ ")") := by
  unfold renderArguments
  by_cases hws : ws = []
  · subst hws
    simp [Keyed.settled, eq_comm]
  · have hfull : ¬ (Keyed.settled ws).isEmpty = true := fun h =>
      hws (Keyed.settled_eq_nil_iff.1 (List.isEmpty_iff.1 h))
    have hread : (∃ texts, Value.renderFields constant (Keyed.settled ws) = .ok texts ∧
        (pure ("(" ++ ", ".intercalate texts ++ ")") : Rendered String) = .ok text) ↔
        ∃ texts, Value.Lists constant ws texts ∧
          text = "(" ++ ", ".intercalate texts ++ ")" := by
      refine exists_congr fun texts => and_congr Value.renderFields_settled_iff ?_
      rw [pure_eq, Except.ok.injEq, eq_comm]
    simp only [if_neg hfull, bind_eq_ok, hread, hws, false_and, false_or, ne_eq, not_false_eq_true,
      true_and]

namespace Field

theorem with_arguments {f : Field} {args : Arguments} (h : f.arguments = args) :
    { f with arguments := args } = f := by
  subst h
  cases f
  rfl

theorem made_addArgument (name : String) (v : Value) (f : Field) :
    (addArgument name v).made f = if name = "" then .error (.missingName .argument)
      else .ok { f with arguments := Keyed.insert name v f.arguments } := by
  rw [(addArgument_puts name v).made_eq]
  by_cases h : name = "" <;> simp [h]

/-- All names are checked before any argument is replaced. -/
theorem made_setArguments (args : Arguments) (f : Field) :
    (setArguments args).made f = if "" ∈ Keyed.keys args then .error (.missingName .argument)
      else .ok { f with arguments := args } := by
  rw [(setArguments_puts args).made_eq, checkArguments]
  by_cases h : "" ∈ Keyed.keys args <;> simp [h]

/-- One by one the pairs are all taken, unless a name is missing. -/
theorem made_forM_addArgument (ps : List (String × Value)) (f : Field) :
    Change.made (forM ps fun p => addArgument p.1 p.2) f =
      if "" ∈ Keyed.keys ps then .error (.missingName .argument)
      else .ok { f with
        arguments := ps.foldl (fun es p => Keyed.insert p.1 p.2 es) f.arguments } := by
  rw [Change.made_forM]
  induction ps generalizing f with
  | nil =>
    simp only [List.foldlM_nil, Keyed.keys_nil, List.not_mem_nil, if_false, List.foldl_nil]
    exact congrArg Except.ok (with_arguments rfl).symm
  | cons p ps ih =>
    rw [List.foldlM_cons, made_addArgument]
    by_cases hp : p.1 = ""
    · simp [hp]
    · have hp' : ¬ "" = p.1 := fun h => hp h.symm
      simp [hp, hp', ih]

/-- A whole map is taken if and as its entries are taken one by one. -/
theorem made_setArguments_eq_forM {args : Arguments} (h : Keyed.Distinct args) (f : Field) :
    (setArguments args).made f =
      Change.made (forM args fun p => addArgument p.1 p.2) { f with arguments := [] } := by
  have hargs : args.foldl (fun es p => Keyed.insert p.1 p.2 es) [] = args :=
    Keyed.ofPairs_of_distinct h
  rw [made_setArguments, made_forM_addArgument, hargs]

end Field

namespace Build

/-- A call that gives arguments: one more, or a map of all of them. -/
inductive ArgumentCall where
  | one (name : String) (value : Value)
  | all (args : List (String × Value))

namespace ArgumentCall

def step : ArgumentCall → FieldStep
  | .one name value => .argument name value
  | .all args => .arguments args

def given : ArgumentCall → List (String × Value)
  | .one name value => [(name, value)]
  | .all args => args

/-- A map that a caller gives holds each of its keys once. -/
def Distinct (c : ArgumentCall) : Prop := Keyed.Distinct c.given

def Named (c : ArgumentCall) : Prop := "" ∉ Keyed.keys c.given

instance (c : ArgumentCall) : Decidable c.Named := inferInstanceAs (Decidable (_ ∉ _))

def fault (c : ArgumentCall) : Option BuildError :=
  if c.Named then none else some (.missingName .argument)

/-- Behind what was given before, or in its place. -/
def putAfter (ws : List (String × Value)) : ArgumentCall → List (String × Value)
  | .one name value => ws ++ [(name, value)]
  | .all args => args

/-- The log after the call. -/
def log (ws : List (String × Value)) (c : ArgumentCall) : List (String × Value) :=
  if c.Named then c.putAfter ws else ws

/-- The call takes the place of what was given before. -/
def Replaces (c : ArgumentCall) : Prop := c.Named ∧ ∃ args, c = .all args

/-- What stands after the calls of what was there before and of all that was given. -/
def standing (args : Arguments) (calls : List ArgumentCall) : List (String × Value) :=
  calls.foldl log args

def change : ArgumentCall → Change Field Unit
  | .one name value => Field.addArgument name value
  | .all args => Field.setArguments args

theorem action_step (c : ArgumentCall) : c.step.action = Action.ofChange c.change := by
  cases c <;> rfl

theorem change_of_named {c : ArgumentCall} (hc : c.Distinct) (hn : c.Named) {f : Field}
    {ws : List (String × Value)} (hf : f.arguments = Keyed.ofPairs ws) :
    c.change f = .ok () { f with arguments := Keyed.ofPairs (c.log ws) } := by
  rw [← Change.made_eq_ok_iff, log, if_pos hn]
  cases c with
  | one name value =>
    have hname : name ≠ "" := fun h => hn (List.mem_singleton.2 h.symm)
    rw [change, Field.made_addArgument, if_neg hname, hf, putAfter, Keyed.ofPairs_concat]
  | all args =>
    have hnamed : "" ∉ Keyed.keys args := hn
    have hargs : Keyed.ofPairs args = args := Keyed.ofPairs_of_distinct hc
    rw [change, Field.made_setArguments, if_neg hnamed, putAfter, hargs]

/-- A call with an empty name leaves all arguments as they were. -/
theorem change_of_not_named {c : ArgumentCall} (hn : ¬ c.Named) (f : Field) :
    c.change f = .error (.missingName .argument) f := by
  cases c with
  | one name value =>
    have hname : name.isEmpty = true := by
      rw [String.isEmpty_iff]
      exact (List.mem_singleton.1 (not_not.1 hn)).symm
    exact (Field.addArgument_puts name value).of_error (if_pos hname) f
  | all args =>
    have hempty : "" ∈ Keyed.keys args := not_not.1 hn
    have hargs : checkArguments args = .error (.missingName .argument) :=
      if_pos (List.any_eq_true.2 ⟨"", hempty, by simp⟩)
    exact (Field.setArguments_puts args).of_error hargs f

/-- If the log tells the arguments before a call, it tells them after the call. -/
theorem action_attempt {c : ArgumentCall} (hc : c.Distinct) {f : Field}
    {ws : List (String × Value)} (hf : f.arguments = Keyed.ofPairs ws) :
    let f' : Field := { f with arguments := Keyed.ofPairs (c.log ws) }
    (FieldStep.attempt c.step).action f = ⟨f', none, .change [] (.field f') c.fault⟩ := by
  rw [FieldStep.action, Action.attempt, action_step, Action.ofChange, Action.after]
  by_cases hn : c.Named
  · have hdone := change_of_named hc hn hf
    rw [Change.left_of_ok hdone, Change.failure_of_ok hdone, fault, if_pos hn]
    rfl
  · have hself : { f with arguments := Keyed.ofPairs (c.log ws) } = f := by
      rw [log, if_neg hn, Field.with_arguments hf]
    have hfailed := change_of_not_named hn f
    rw [Change.left_of_error hfailed, Change.failure_of_error hfailed, fault, if_neg hn, hself]
    rfl

/-- What the calls leave is what the named ones among them give, the failures being swallowed
one by one. -/
theorem runAll_attempts {calls : List ArgumentCall} (hcalls : ∀ c ∈ calls, c.Distinct) {f : Field}
    {ws : List (String × Value)} (hf : f.arguments = Keyed.ofPairs ws) :
    let r := Action.runAll (calls.map fun c => (FieldStep.attempt c.step).action) f
    r.failure = none ∧ r.records.map Record.failure? = calls.map fault ∧
      r.state = { f with arguments := Keyed.ofPairs (standing ws calls) } := by
  induction calls generalizing f ws with
  | nil =>
    have hself : { f with arguments := Keyed.ofPairs (standing ws []) } = f :=
      Field.with_arguments hf
    exact ⟨rfl, rfl, hself.symm⟩
  | cons c calls ih =>
    rw [List.forall_mem_cons] at hcalls
    have hstep := action_attempt hcalls.1 hf
    have hfailure : ((FieldStep.attempt c.step).action f).failure = none := by rw [hstep]
    obtain ⟨hnone, hrecords, hstate⟩ := ih hcalls.2
      (f := { f with arguments := Keyed.ofPairs (c.log ws) }) rfl
    simp only [List.map_cons, Action.runAll_cons_of_success hfailure, hstep]
    exact ⟨hnone, congrArg (c.fault :: ·) hrecords, hstate⟩

/-- Refused calls put no empty name among those that stand. -/
theorem named_standing {ws : List (String × Value)} (hws : "" ∉ Keyed.keys ws)
    (calls : List ArgumentCall) : "" ∉ Keyed.keys (standing ws calls) := by
  induction calls generalizing ws with
  | nil => exact hws
  | cons c calls ih =>
    refine ih ?_
    unfold log
    split
    case isFalse => exact hws
    case isTrue hn =>
      cases c with
      | one name value =>
        rw [putAfter, Keyed.keys, List.map_append, List.mem_append, not_or]
        exact ⟨hws, hn⟩
      | all args => exact hn

/-- Calls that replace nothing add to the log what they give. -/
theorem standing_of_keeping {calls : List ArgumentCall} (h : ∀ c ∈ calls, ¬ c.Replaces)
    (ws : List (String × Value)) :
    standing ws calls = ws ++ (calls.filter fun c => c.Named).flatMap given := by
  induction calls generalizing ws with
  | nil => simp [standing]
  | cons c calls ih =>
    rw [List.forall_mem_cons] at h
    have hstanding : standing ws (c :: calls) = standing (c.log ws) calls := rfl
    rw [hstanding, ih h.2, log]
    by_cases hn : c.Named
    · cases c with
      | one name value => simp [hn, given, putAfter]
      | all args => exact absurd ⟨hn, args, rfl⟩ h.1
    · simp [hn]

/-- A map that replaces what there was begins the log anew. -/
theorem standing_of_replacing {args : Arguments} (h : "" ∉ Keyed.keys args)
    (ws : List (String × Value)) (before after : List ArgumentCall) :
    standing ws (before ++ .all args :: after) = standing args after := by
  have hlog : log (standing ws before) (.all args) = args := by
    rw [log, if_pos (show Named (.all args) from h), putAfter]
  rw [standing, List.foldl_append, List.foldl_cons]
  exact congrArg (fun ws => standing ws after) hlog

/-- In any series of calls, of which any may fail: a call fails if it gives something without a
name, and the arguments are those that the log tells, in the order of their names in it and each
with the value logged last; so they are written. The log holds what was given, one call after the
other, since a whole map was taken for the last time, or since the beginning. A whole map is taken
if and as its entries are taken one by one, or else the field is as it was, and the pairs of an
object leave in it, and are written in it, what they would leave as arguments. -/
theorem arguments_settled {calls : List ArgumentCall} (hcalls : ∀ c ∈ calls, c.Distinct)
    {f : Field} (hdistinct : Keyed.Distinct f.arguments) (hnamed : "" ∉ Keyed.keys f.arguments) :
    let r := Action.runAll (calls.map fun c => (FieldStep.attempt c.step).action) f
    let ws := standing f.arguments calls
    (r.failure = none ∧ r.records.map Record.failure? = calls.map fault ∧
      r.state = { f with arguments := Keyed.settled ws }) ∧
    (Keyed.Distinct (Keyed.settled ws) ∧ "" ∉ Keyed.keys (Keyed.settled ws) ∧
      Keyed.keys (Keyed.settled ws) = (Keyed.keys ws).eraseDups ∧
      ∀ k, (Keyed.settled ws).lookup k = ws.reverse.lookup k) ∧
    (∀ constant text, renderArguments constant r.state.arguments = .ok text ↔
      (ws = [] ∧ text = "") ∨ (ws ≠ [] ∧ ∃ texts, Value.Lists constant ws texts ∧
        text = "(" ++ ", ".intercalate texts ++ ")")) ∧
    ((∀ c ∈ calls, ¬ c.Replaces) →
      ws = f.arguments ++ (calls.filter fun c => c.Named).flatMap given) ∧
    (∀ before args after, calls = before ++ .all args :: after → "" ∉ Keyed.keys args →
      (∀ c ∈ after, ¬ c.Replaces) →
      ws = args ++ (after.filter fun c => c.Named).flatMap given) ∧
    (∀ (args : Arguments) (g : Field), Keyed.Distinct args →
      (Field.setArguments args).made g =
        Change.made (forM args fun p => Field.addArgument p.1 p.2) { g with arguments := [] } ∧
      (∀ g', Field.setArguments args g = .ok () g' → g'.arguments = args) ∧
      ∀ e g', Field.setArguments args g = .error e g' → g' = g) ∧
    ∀ ps : List (String × Value), Value.ofPairs ps = .object (Keyed.settled ps) ∧
      Keyed.keys (Keyed.settled ps) = (Keyed.keys ps).eraseDups ∧
      (∀ k, (Keyed.settled ps).lookup k = ps.reverse.lookup k) ∧
      ∀ constant text, (Value.ofPairs ps).render constant = .ok text ↔
        ∃ texts, Value.Lists constant ps texts ∧
          text = "\x7b" ++ ", ".intercalate texts ++ "\x7d" := by
  intro r ws
  -- The arguments that are there count as written before the calls.
  have hwritten : f.arguments = Keyed.ofPairs f.arguments :=
    (Keyed.ofPairs_of_distinct hdistinct).symm
  obtain ⟨hnone, hrecords, hstate⟩ := runAll_attempts hcalls hwritten
  rw [Keyed.ofPairs_eq_settled] at hstate
  have hkeys : "" ∉ Keyed.keys (Keyed.settled ws) := by
    rw [Keyed.keys_settled, List.mem_eraseDups]
    exact named_standing hnamed calls
  have harguments : r.state.arguments = Keyed.settled ws := by rw [hstate]
  refine ⟨⟨hnone, hrecords, hstate⟩,
    ⟨Keyed.distinct_settled ws, hkeys, Keyed.keys_settled ws, Keyed.lookup_settled ws⟩,
    fun constant text => ?_, fun hkeep => standing_of_keeping hkeep f.arguments,
    fun before args after h hargs hkeep => ?_,
    fun args g hargs => ⟨?_, fun g' hg => ?_, fun e g' hg => ?_⟩,
    fun ps => ⟨?_, Keyed.keys_settled ps, Keyed.lookup_settled ps,
      fun _ _ => Value.render_ofPairs_iff⟩⟩
  · rw [harguments]
    exact renderArguments_settled_iff
  · subst h
    exact (standing_of_replacing hargs f.arguments before after).trans
      (standing_of_keeping hkeep args)
  · exact Field.made_setArguments_eq_forM hargs g
  · rw [← Change.made_eq_ok_iff, Field.made_setArguments] at hg
    split at hg
    · cases hg
    · cases hg
      rfl
  · rw [← Change.left_of_error hg]
    exact (Field.setArguments_puts args).left_of_failure (Change.failure_of_error hg)
  · rw [Value.ofPairs, Keyed.ofPairs_eq_settled]

/-- Calls that fail stand before and behind a whole map, which keeps one of the earlier names. -/
def replacing : List ArgumentCall :=
  [.one "a" (.int 1), .all [("x", .null), ("", .null)], .all [("q", .int 2), ("a", .null)],
    .one "" (.int 3), .one "r" (.var "v"), .one "q" (.list [.enum "E"])]

theorem arguments_settled_of_replacing :
    let f : Field := { name := "f", arguments := [("z", .bool true), ("a", .null)] }
    let r := Action.runAll (replacing.map fun c => (FieldStep.attempt c.step).action) f
    (∀ c ∈ replacing, c.Distinct) ∧ Keyed.Distinct f.arguments ∧ "" ∉ Keyed.keys f.arguments ∧
      r.records.map Record.failure? = [none, some (.missingName .argument), none,
        some (.missingName .argument), none, none] ∧
      r.state.arguments = [("q", .list [.enum "E"]), ("a", .null), ("r", .var "v")] ∧
      (∃ texts, Value.Lists false (standing f.arguments replacing) texts ∧
        "(q: [E], a: null, r: $v)" = "(" ++ ", ".intercalate texts ++ ")") ∧
      (∃ texts, Value.Lists true [("k", .null), ("", .int 4), ("k", .bool false)] texts ∧
        "\x7bk: false, : 4\x7d" = "\x7b" ++ ", ".intercalate texts ++ "\x7d") := by
  intro f r
  have hcalls : ∀ c ∈ replacing, c.Distinct := by
    simp [replacing, Distinct, Keyed.Distinct, given]
  have hdistinct : Keyed.Distinct f.arguments := by simp [f, Keyed.Distinct]
  have hnamed : "" ∉ Keyed.keys f.arguments := by simp [f]
  obtain ⟨⟨-, hrecords, hstate⟩, -, hwritten, -, -, -, hobject⟩ :=
    arguments_settled hcalls hdistinct hnamed
  have harguments : r.state.arguments =
      [("q", .list [.enum "E"]), ("a", .null), ("r", .var "v")] := by
    rw [hstate]
    rfl
  have htext : renderArguments false r.state.arguments = .ok "(q: [E], a: null, r: $v)" := by
    rw [harguments]
    rfl
  refine ⟨hcalls, hdistinct, hnamed, hrecords, harguments, ?_, ?_⟩
  · obtain ⟨hempty, -⟩ | ⟨-, hlists⟩ := (hwritten false _).1 htext
    · cases hempty
    · exact hlists
  · exact ((hobject _).2.2.2 true _).1 rfl

end ArgumentCall
end Build
end QueryDocument
