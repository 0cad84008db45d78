import QueryDocument.Json.Encode
import QueryDocument.Proofs.Json.Parsed
import QueryDocument.Proofs.Json.Denoted

/-!
The JSON form of a node has no literal without a meaning: integers fit 64 bits, and of the doubles
only the finite ones are written as numbers.
-/
namespace QueryDocument

namespace Json

/-- The keys of a record are texts, which always denote something. -/
theorem sound_record {members : List (String × Json)} (h : ∀ m ∈ members, m.2.Sound) :
    (record members).Sound := by
  refine (soundMembers_iff _).2 fun m hm => ?_
  obtain ⟨m', hm', rfl⟩ := List.mem_map.1 hm
  exact ⟨trivial, h m' hm'⟩

theorem sound_array {α : Type} {f : α → Json} {xs : List α} (h : ∀ x ∈ xs, (f x).Sound) :
    (array (xs.map f)).Sound := by
  refine (soundItems_iff _).2 fun j hj => ?_
  obtain ⟨x, hx, rfl⟩ := List.mem_map.1 hj
  exact h x hx

theorem sound_ofOption {α : Type} {f : α → Json} (h : ∀ a, (f a).Sound) (o : Option α) :
    (ofOption f o).Sound := by
  cases o with
  | none => trivial
  | some a => exact h a

theorem sound_ofKeyed {α : Type} {f : α → Json} (h : ∀ a, (f a).Sound) (es : Keyed α) :
    (ofKeyed f es).Sound := by
  refine (soundMembers_iff _).2 fun m hm => ?_
  obtain ⟨e, -, rfl⟩ := List.mem_map.1 hm
  exact ⟨trivial, h e.2⟩

theorem sound_text (s : String) : (text s).Sound := trivial

mutual
/-- What can be read back is JSON. -/
theorem Sound.whole : {j : Json} → j.Sound → j.Whole
  | .null, _ | .bool _, _ => trivial
  | .number (some _), _ => rfl
  | .string (some _), _ => rfl
  | .array _, h => SoundItems.whole h
  | .object _, h => SoundMembers.whole h

theorem SoundItems.whole : {js : List Json} → SoundItems js → WholeItems js
  | [], _ => trivial
  | _ :: _, h => ⟨Sound.whole h.1, SoundItems.whole h.2⟩

theorem SoundMembers.whole : {ms : List (Option String × Json)} → SoundMembers ms → WholeMembers ms
  | [], _ => trivial
  | (some _, _) :: _, h => ⟨rfl, Sound.whole h.2.1, SoundMembers.whole h.2.2⟩
end

/-- Such a tree passes the check of its literals. -/
theorem read_sound (j : Json) (h : j.Sound) (s : Strictness) : j.read s .sound = .ok () :=
  (read_whole j h.whole s).1

end Json

open Json

/-- The size of a signed integer fits an unsigned one. -/
theorem natAbs_toInt_lt (n : Int64) : n.toInt.natAbs < UInt64.size := by
  have hlo := n.le_toInt
  have hhi := n.toInt_lt
  have hsize : UInt64.size = 2 ^ 64 := rfl
  omega

namespace Value

/-- A float that is not finite is written as null, a finite one as a number. -/
theorem sound_ofFloat (x : Binary64) : (ofFloat x).Sound := by
  unfold ofFloat
  split
  · assumption
  · trivial

mutual
theorem sound_toJson : (v : Value) → v.toJson.Sound
  | .bool _ => ⟨trivial, trivial, trivial⟩
  | .enum _ => ⟨trivial, trivial, trivial⟩
  | .float x => ⟨trivial, sound_ofFloat x, trivial⟩
  | .int n => ⟨trivial, natAbs_toInt_lt n, trivial⟩
  | .list items => ⟨trivial, sound_itemsToJson items, trivial⟩
  | .null => trivial
  | .object fields => ⟨trivial, sound_fieldsToJson fields, trivial⟩
  | .string _ => ⟨trivial, trivial, trivial⟩
  | .var _ => ⟨trivial, trivial, trivial⟩

theorem sound_itemsToJson : (vs : List Value) → SoundItems (itemsToJson vs)
  | [] => trivial
  | v :: vs => ⟨sound_toJson v, sound_itemsToJson vs⟩

theorem sound_fieldsToJson : (fs : List (String × Value)) → SoundMembers (fieldsToJson fs)
  | [] => trivial
  | (_, v) :: fs => ⟨trivial, sound_toJson v, sound_fieldsToJson fs⟩
end

end Value

theorem Directive.sound_toJson (d : Directive) : d.toJson.Sound :=
  ⟨trivial, Value.sound_fieldsToJson d.arguments, trivial, trivial, trivial⟩

theorem sound_directivesToJson (ds : List Directive) : (directivesToJson ds).Sound :=
  sound_array fun d _ => d.sound_toJson

theorem VariableDefinition.sound_toJson (d : VariableDefinition) : d.toJson.Sound :=
  sound_record (by
    simp [sound_ofOption Value.sound_toJson, sound_directivesToJson, sound_text])

theorem OperationKind.sound_toJson (k : OperationKind) : k.toJson.Sound := sound_text _

theorem FragmentSpread.sound_members (s : FragmentSpread) : ∀ m ∈ s.members, m.2.Sound := by
  simp [members, sound_directivesToJson, sound_text]

theorem sound_taggedNode {members : List (String × Json)} (h : ∀ m ∈ members, m.2.Sound)
    (tag : String) : (taggedNode tag members).Sound :=
  sound_record (List.forall_mem_cons.2 ⟨sound_text tag, h⟩)

mutual
theorem Field.sound_members : (f : Field) → ∀ m ∈ f.members, m.2.Sound
  | ⟨name, label, args, ds, ss⟩ => by
    have hargs : (Json.object (Value.fieldsToJson args)).Sound := Value.sound_fieldsToJson args
    have hss : (Json.array (Selection.allToJson ss)).Sound := Selection.sound_allToJson ss
    simp [Field.members, sound_ofOption sound_text, hargs, sound_directivesToJson, sound_text, hss]

theorem InlineFragment.sound_members : (f : InlineFragment) → ∀ m ∈ f.members, m.2.Sound
  | ⟨type, ds, ss⟩ => by
    have hss : (Json.array (Selection.allToJson ss)).Sound := Selection.sound_allToJson ss
    simp [InlineFragment.members, sound_ofOption sound_text, sound_directivesToJson, hss]

theorem Selection.sound_toJson : (s : Selection) → s.toJson.Sound
  | .field f => sound_taggedNode (Field.sound_members f) _
  | .spread s => sound_taggedNode s.sound_members _
  | .inlineFragment f => sound_taggedNode (InlineFragment.sound_members f) _
  | .unknown => sound_taggedNode (by simp) _

theorem Selection.sound_allToJson : (ss : List Selection) → SoundItems (Selection.allToJson ss)
  | [] => trivial
  | s :: ss => ⟨Selection.sound_toJson s, Selection.sound_allToJson ss⟩
end

theorem sound_selections (ss : List Selection) : (Json.array (Selection.allToJson ss)).Sound :=
  Selection.sound_allToJson ss

theorem FragmentDefinition.sound_members (f : FragmentDefinition) : ∀ m ∈ f.members, m.2.Sound := by
  simp [members, sound_directivesToJson, sound_text, sound_selections]

theorem Operation.sound_members (o : Operation) : ∀ m ∈ o.members, m.2.Sound := by
  simp [members, sound_directivesToJson, OperationKind.sound_toJson, sound_ofOption sound_text,
    sound_selections, sound_ofKeyed VariableDefinition.sound_toJson]

/-- An unknown definition is nothing but its tag. -/
theorem Definition.sound_toJson (d : Definition) : d.toJson.Sound := by
  cases d with
  | fragment f => exact sound_taggedNode f.sound_members _
  | operation o => exact sound_taggedNode o.sound_members _
  | unknown => exact sound_taggedNode (by simp) _

/-- The whole text of a node is JSON that can be read back. -/
theorem Node.sound_toJson (node : Node) : node.toJson.Sound := by
  cases node with
  | document d =>
    have hds : (Json.array (d.definitions.map Definition.toJson)).Sound :=
      sound_array fun x _ => x.sound_toJson
    exact sound_record (by simp [hds])
  | field f => exact sound_record f.sound_members
  | fragmentDefinition f => exact sound_record f.sound_members
  | fragmentSpread s => exact sound_record s.sound_members
  | inlineFragment f => exact sound_record f.sound_members
  | operation o => exact sound_record o.sound_members

end QueryDocument
