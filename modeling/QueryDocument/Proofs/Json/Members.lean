import QueryDocument.Json.Decode
import QueryDocument.Json.Encode
import QueryDocument.Proofs.Construction.WellFormed

/-!
Reading containers whose parts are known: an object whose members stand in the order of its keys
reads as its array form does, and lists and maps are read part by part.
-/
namespace QueryDocument
namespace Json

variable {α β : Type}

/-- What is read of `a` where only `p` tells whether it can be read. -/
def onlyIf (p : Bool) (a : α) : Reads α := if p then .ok a else .error .malformed

@[simp] theorem onlyIf_true (a : α) : onlyIf true a = .ok a := rfl
@[simp] theorem onlyIf_false (a : α) : onlyIf false a = .error .malformed := rfl

theorem onlyIf_bind {p q : Bool} {a : α} {f : α → Reads β} {b : β} (h : f a = onlyIf q b) :
    (onlyIf p a >>= f) = onlyIf (p && q) b := by
  cases p with
  | false => rfl
  | true => exact h

theorem map_onlyIf (f : α → β) (p : Bool) (a : α) : f <$> onlyIf p a = onlyIf p (f a) := by
  cases p <;> rfl

theorem map_eq_onlyIf {r : Reads α} {p : Bool} {a : α} (h : r = onlyIf p a) (f : α → β) :
    f <$> r = onlyIf p (f a) := by
  rw [h, map_onlyIf]

/-- A list can be read if each of its items can. -/
theorem mapM_onlyIf {f : α → Reads α} {p : α → Bool} {xs : List α}
    (h : ∀ x ∈ xs, f x = onlyIf (p x) x) : xs.mapM f = onlyIf (xs.all p) xs := by
  induction xs with
  | nil => rfl
  | cons x xs ih =>
    rw [List.forall_mem_cons] at h
    rw [List.mapM_cons, h.1, ih h.2, List.all_cons]
    refine onlyIf_bind ?_
    cases xs.all p <;> rfl

namespace Schema

/-- A place is filled once only. -/
theorem put_cons (key : String) (r : Reading) (k : String) (slot : Slot) (rest : Schema)
    (c : Option slot.Content) (d : Draft rest) :
    put key r ((k, slot) :: rest) (c, d) =
      if k = key then (match c with
        | some _ => .error .malformed
        | none => do let c ← r slot; pure (some c, d))
      else (do let d ← put key r rest d; pure (c, d)) := rfl

theorem put_self (k : String) (r : Reading) (slot : Slot) (rest : Schema) (d : Draft rest) :
    put k r ((k, slot) :: rest) (none, d) = (fun c => (some c, d)) <$> r slot := by
  rw [put_cons, if_pos rfl]
  cases r slot <;> rfl

theorem put_of_ne {k key : String} (h : k ≠ key) (r : Reading) {slot : Slot} {rest : Schema}
    (c : Option slot.Content) (d : Draft rest) :
    put key r ((k, slot) :: rest) (c, d) = (fun d => (c, d)) <$> put key r rest d := by
  rw [put_cons, if_neg h]
  cases put key r rest d <;> rfl

/-- Members of other names pass by the first place. -/
theorem putAll_cons_of_ne {k : String} {slot : Slot} {rest : Schema} {ms : List (String × Reading)}
    (h : ∀ m ∈ ms, m.1 ≠ k) (c : Option slot.Content) (d : Draft rest) :
    putAll ((k, slot) :: rest) (ms.map fun m => (some m.1, m.2)) (c, d) =
      (fun d => (c, d)) <$> putAll rest (ms.map fun m => (some m.1, m.2)) d := by
  induction ms generalizing d with
  | nil => rfl
  | cons m ms ih =>
    rw [List.forall_mem_cons] at h
    rw [List.map_cons, putAll, putAll, put_of_ne (Ne.symm h.1)]
    cases put m.1 m.2 rest d with
    | error e => rfl
    | ok d => exact ih h.2 d

/-- The first member fills the first place, and the others pass by it. -/
theorem complete_putAll_cons {k : String} {slot : Slot} {rest : Schema} {r : Reading}
    {ms : List (String × Reading)} (h : ∀ m ∈ ms, m.1 ≠ k) :
    (putAll ((k, slot) :: rest) (((k, r) :: ms).map fun m => (some m.1, m.2))
        (noDraft ((k, slot) :: rest)) >>= complete ((k, slot) :: rest)) =
      (do
        let c ← r slot
        let cs ← putAll rest (ms.map fun m => (some m.1, m.2)) (noDraft rest) >>= complete rest
        pure (c, cs)) := by
  rw [List.map_cons, putAll, noDraft, put_self]
  dsimp only
  cases r slot with
  | error e => rfl
  | ok c =>
    change (putAll ((k, slot) :: rest) _ (some c, noDraft rest) >>= _) = _
    rw [putAll_cons_of_ne h]
    cases putAll rest (ms.map fun m => (some m.1, m.2)) (noDraft rest) <;> rfl

/-- If the members stand in the order of the places, each fills the next one. -/
theorem complete_putAll {schema : Schema} (hd : (schema.map Prod.fst).Nodup)
    {ms : List (String × Reading)} (hk : ms.map Prod.fst = schema.map Prod.fst) :
    (putAll schema (ms.map fun m => (some m.1, m.2)) schema.noDraft >>= complete schema) =
      schema.inOrder (ms.map Prod.snd) := by
  induction schema generalizing ms with
  | nil =>
    obtain rfl := List.map_eq_nil_iff.1 hk
    rfl
  | cons place rest ih =>
    obtain ⟨k, slot⟩ := place
    obtain ⟨⟨k', r⟩, ms, rfl, hkey, hrest⟩ := List.map_eq_cons_iff.1 hk
    obtain rfl : k' = k := hkey
    obtain ⟨hnew, hd⟩ := List.nodup_cons.1 hd
    have hne : ∀ m ∈ ms, m.1 ≠ k' := by
      intro m hm he
      have hmem : m.1 ∈ ms.map Prod.fst := List.mem_map_of_mem hm
      rw [hrest, he] at hmem
      exact hnew hmem
    rw [complete_putAll_cons hne, ih hd hrest, List.map_cons, inOrder]

end Schema

/-- The layer of a record. -/
def recordLayer (members : List (String × Json)) (s : Strictness) : Layer :=
  .object (readMembers (members.map fun m => (some m.1, m.2)) s)

theorem recordLayer_eq (members : List (String × Json)) (s : Strictness) :
    recordLayer members s = .object (members.map fun m => (some m.1, m.2.read s)) := by
  rw [recordLayer, readMembers_eq_map, List.map_map]
  rfl

/-- A record whose keys are those of the schema is read as an array of its members. -/
theorem struct_record {schema : Schema} {members : List (String × Json)}
    (hk : members.map Prod.fst = schema.map Prod.fst) (hd : (schema.map Prod.fst).Nodup)
    (s : Strictness) :
    (recordLayer members s).struct schema = schema.inOrder (members.map fun m => m.2.read s) := by
  have hkeys : (members.map fun m => (m.1, m.2.read s)).map Prod.fst = schema.map Prod.fst := by
    rw [← hk, List.map_map]
    rfl
  have hread := Schema.complete_putAll hd hkeys
  rw [List.map_map, List.map_map] at hread
  rw [recordLayer_eq]
  exact hread

theorem read_text (text : String) (s : Strictness) :
    (Json.text text).read s .text = onlyIf true text := rfl

/-- The members have the keys of the schema, in its order; `cs` is read from them if `p` holds. -/
inductive Held (s : Strictness) :
    (schema : Schema) → List (String × Json) → Bool → schema.Contents → Prop where
  | nil : Held s [] [] true ()
  | cons (k : String) {slot : Slot} {j : Json} {p : Bool} {c : slot.Content} {rest : Schema}
      {members : List (String × Json)} {q : Bool} {cs : rest.Contents}
      (h : j.read s slot = onlyIf p c) (hs : Held s rest members q cs) :
      Held s ((k, slot) :: rest) ((k, j) :: members) (p && q) (c, cs)

theorem Held.keys {s : Strictness} {schema : Schema} {members : List (String × Json)} {p : Bool}
    {cs : schema.Contents} (h : Held s schema members p cs) :
    members.map Prod.fst = schema.map Prod.fst := by
  induction h with
  | nil => rfl
  | cons k h hs ih => rw [List.map_cons, List.map_cons, ih]

/-- One member that cannot be read is enough to refuse the record. -/
theorem Held.inOrder {s : Strictness} {schema : Schema} {members : List (String × Json)} {p : Bool}
    {cs : schema.Contents} (h : Held s schema members p cs) :
    schema.inOrder (members.map fun m => m.2.read s) = onlyIf p cs := by
  induction h with
  | nil => rfl
  | @cons k slot j p c rest members q cs h hs ih =>
    rw [List.map_cons, Schema.inOrder, h]
    refine onlyIf_bind ?_
    rw [ih]
    cases q <;> rfl

/-- A record is read by reading its members in order and building from what they hold. -/
theorem Held.struct {s : Strictness} {schema : Schema} {members : List (String × Json)} {p : Bool}
    {cs : schema.Contents} (h : Held s schema members p cs) (hd : (schema.map Prod.fst).Nodup) :
    (recordLayer members s).struct schema = onlyIf p cs := by
  rw [struct_record h.keys hd, h.inOrder]

theorem read_list (js : List Json) (s : Strictness) (slot : Slot) :
    (array js).read s (.list slot) = js.mapM fun j => j.read s slot := by
  change (readItems js s).mapM _ = _
  rw [readItems_eq_map, List.mapM_map]
  rfl

/-- A list is read item by item. -/
theorem read_map {slot : Slot} {f : slot.Content → Json} {p : slot.Content → Bool}
    {xs : List slot.Content} {s : Strictness} (h : ∀ x ∈ xs, (f x).read s slot = onlyIf (p x) x) :
    (array (xs.map f)).read s (.list slot) = onlyIf (xs.all p) xs := by
  rw [read_list, List.mapM_map]
  exact mapM_onlyIf h

/-- Entries of new keys are added in the order of the text. -/
theorem entriesOf_onlyIf {slot : Slot} (f : slot.Content → Reading) {p : slot.Content → Bool}
    {xs : Keyed slot.Content} (h : ∀ x ∈ xs, f x.2 slot = onlyIf (p x.2) x.2)
    {es : Keyed slot.Content} (hd : Keyed.Distinct (es ++ xs)) :
    Layer.entriesOf slot (xs.map fun x => (some x.1, f x.2)) es =
      onlyIf (xs.all fun x => p x.2) (es ++ xs) := by
  induction xs generalizing es with
  | nil => simp [Layer.entriesOf]
  | cons x xs ih =>
    rw [List.forall_mem_cons] at h
    rw [List.map_cons, Layer.entriesOf, h.1, List.all_cons]
    refine onlyIf_bind ?_
    have hd' : Keyed.Distinct ((es ++ [(x.1, x.2)]) ++ xs) := by simpa using hd
    rw [Keyed.insert_of_notMem hd.notMem_of_append, ih h.2 hd']
    simp

/-- A map whose keys are distinct is read entry by entry. -/
theorem read_keyed {slot : Slot} {f : slot.Content → Json} {p : slot.Content → Bool}
    {xs : Keyed slot.Content} (hd : Keyed.Distinct xs) {s : Strictness}
    (h : ∀ x ∈ xs, (f x.2).read s slot = onlyIf (p x.2) x.2) :
    (ofKeyed f xs).read s (.keyed slot) = onlyIf (xs.all fun x => p x.2) xs := by
  change Layer.entriesOf slot (readMembers (xs.map fun x => (some x.1, f x.2)) s) [] = _
  rw [readMembers_eq_map, List.map_map]
  have hdistinct : Keyed.Distinct ([] ++ xs) := hd
  exact entriesOf_onlyIf (fun c => (f c).read s) h hdistinct

/-- What is no null is read in an optional place as in any other. -/
theorem read_optional {j : Json} (h : j ≠ .null) (s : Strictness) (slot : Slot) :
    j.read s (.optional slot) = some <$> j.read s slot := by
  cases j with
  | null => exact absurd rfl h
  | bool b => rfl
  | number n => rfl
  | string text => rfl
  | array items => rfl
  | object members => rfl
  | broken => rfl

/-- What is there must not be written as null, which is read as nothing. -/
theorem read_ofOption (slot : Slot) {f : slot.Content → Json} {p : slot.Content → Bool}
    {o : Option slot.Content} {s : Strictness}
    (h : ∀ a ∈ o, f a ≠ .null ∧ (f a).read s slot = onlyIf (p a) a) :
    (ofOption f o).read s (.optional slot) = onlyIf (o.all p) o := by
  cases o with
  | none => rfl
  | some a =>
    obtain ⟨hne, hr⟩ := h a rfl
    rw [ofOption, read_optional hne, hr, map_onlyIf]
    rfl

end Json
end QueryDocument
