import QueryDocument.Proofs.Construction.Settled
import QueryDocument.Proofs.Document.Reflexive
import QueryDocument.Proofs.Json.Redeclared

/-!
When reading back restores a tree. Redeclaring takes a dollar sign from every name that begins with
one. If all names were found again, each of them would be what is left of another, so that no name
can begin with a dollar sign: of those that do, the longest one is not found again.
-/
namespace QueryDocument

open Json

/-- What is read is `a` if `p` holds, and nothing equal to `a` if not. -/
structure Exact {α : Type} [BEq α] (r : Reads α) (a : α) (p : Prop) : Prop where
  restores : p → r = .ok a
  only : ∀ b, r = .ok b → (b == a) = true → p

namespace Exact

variable {α β : Type} [BEq α] [BEq β]

theorem onlyIf (p : Bool) (a : α) : Exact (Json.onlyIf p a) a (p = true) := by
  cases p with
  | true => exact ⟨fun _ => rfl, fun _ _ _ => rfl⟩
  | false => exact ⟨nofun, nofun⟩

/-- A function that keeps equality keeps what is read back exactly. -/
theorem map {r : Reads α} {a : α} {p : Prop} (h : Exact r a p) {f : α → β}
    (hf : ∀ b, (f b == f a) = (b == a)) : Exact (f <$> r) (f a) p := by
  constructor
  · intro hp
    rw [h.restores hp]
    rfl
  · intro b hb he
    obtain ⟨b', hb', rfl⟩ := Outcome.map_eq_ok.1 hb
    exact h.only b' hb' ((hf b').symm.trans he)

theorem mapM {f : α → Reads α} {P : α → Prop} {xs : List α}
    (h : ∀ x ∈ xs, Exact (f x) x (P x)) : Exact (xs.mapM f) xs (∀ x ∈ xs, P x) := by
  induction xs with
  | nil => exact ⟨fun _ => rfl, by simp⟩
  | cons x xs ih =>
    rw [List.forall_mem_cons] at h
    have htail := ih h.2
    constructor
    · intro hp
      rw [List.forall_mem_cons] at hp
      rw [List.mapM_cons, h.1.restores hp.1, htail.restores hp.2]
      rfl
    · intro b hb he
      rw [List.mapM_cons] at hb
      obtain ⟨y, hy, hb⟩ := Outcome.bind_eq_ok.1 hb
      obtain ⟨ys, hys, hb⟩ := Outcome.bind_eq_ok.1 hb
      cases hb
      rw [List.cons_beq_cons, Bool.and_eq_true] at he
      exact List.forall_mem_cons.2 ⟨h.1.only y hy he.1, htail.only ys hys he.2⟩

theorem congr {r : Reads α} {a : α} {p q : Prop} (h : Exact r a p) (hpq : p ↔ q) :
    Exact r a q :=
  ⟨fun hq => h.restores (hpq.2 hq), fun b hb he => hpq.1 (h.only b hb he)⟩

end Exact

/-- A name that begins with a dollar sign is shortened by it. -/
theorem length_bareName {name : String} (h : ¬ IsPlain name) :
    (bareName name).length + 1 = name.length := by
  obtain ⟨cs, hcs⟩ := List.head?_eq_some_iff.1 (not_not.1 h)
  have hlen : name.length = cs.length + 1 := by
    rw [← String.length_toList, hcs, List.length_cons]
  have hbare : bareName name = String.ofList cs := by
    rw [bareName, hcs]
    rfl
  rw [hbare, hlen, String.length_ofList]

/-- Above every name that begins with a dollar sign there is a longer one. -/
theorem exists_longer {names : List String} (h : ∀ k ∈ names, ∃ k' ∈ names, bareName k' = k)
    {k : String} (hk : k ∈ names) (hd : ¬ IsPlain k) (n : Nat) :
    ∃ k' ∈ names, ¬ IsPlain k' ∧ n ≤ k'.length := by
  induction n with
  | zero => exact ⟨k, hk, hd, Nat.zero_le _⟩
  | succ n ih =>
    obtain ⟨k', hk', hd', hn⟩ := ih
    obtain ⟨k'', hk'', hbare⟩ := h k' hk'
    have hplain : ¬ IsPlain k'' := by
      intro hp
      rw [bareName_of_plain hp] at hbare
      exact hd' (hbare ▸ hp)
    have hlen := length_bareName hplain
    rw [hbare] at hlen
    exact ⟨k'', hk'', hplain, by omega⟩

/-- Names that lose a sign get shorter, so that the names could not stay the same. -/
theorem plain_of_bareNames {names : List String}
    (h : ∀ k ∈ names, ∃ k' ∈ names, bareName k' = k) : ∀ k ∈ names, IsPlain k := by
  intro k hk
  -- Every name is the bare form of another, so from one with a sign there would be a chain of ever
  -- longer ones, longer at last than all names together.
  by_contra hd
  obtain ⟨k', hk', -, hn⟩ := exists_longer h hk hd ((names.map String.length).sum + 1)
  have hle : k'.length ≤ (names.map String.length).sum :=
    List.le_sum_of_mem (List.mem_map_of_mem hk')
  omega

namespace Operation

/-- No variable is kept under a name that begins with a dollar sign. -/
def Plain (o : Operation) : Prop := ∀ k ∈ Keyed.keys o.declared, IsPlain k

theorem redeclared_of_plain {o : Operation} (h : o.WellFormed) (hp : o.Plain) :
    o.redeclared = .ok o := by
  have hbare : ∀ d ∈ o.declared, bareName d.1 = d.1 := fun d hd =>
    bareName_of_plain (hp d.1 (List.mem_map_of_mem hd))
  have hany : (o.declared.any fun d => (bareName d.1).isEmpty) = false := by
    rw [List.any_eq_false]
    intro d hd
    rw [hbare d hd, String.isEmpty_iff]
    exact h.variablesNamed d.1 (List.mem_map_of_mem hd)
  have hmap : (o.declared.map fun d => (bareName d.1, d.2)) = o.declared := by
    refine (List.map_congr_left fun d hd => ?_).trans (List.map_id o.declared)
    rw [hbare d hd]
    rfl
  rw [redeclared, hany, hmap, Keyed.ofPairs_of_distinct h.distinct]
  rfl

/-- If all variables are found again, none of them was kept with a dollar sign. -/
theorem plain_of_agree {o p : Operation} (h : o.redeclared = .ok p)
    (he : Keyed.agree VariableDefinition.eq p.declared o.declared = true) : o.Plain := by
  unfold redeclared at h
  split at h
  · cases h
  · cases h
    refine plain_of_bareNames fun k hk => ?_
    have hmem := Keyed.mem_keys_of_ofPairs
      (Keyed.keys_subset_of_agree (Keyed.distinct_ofPairs _) he k hk)
    obtain ⟨e, hm, rfl⟩ := List.mem_map.1 hmem
    obtain ⟨d, hd, rfl⟩ := List.mem_map.1 hm
    exact ⟨d.1, List.mem_map_of_mem hd, rfl⟩

/-- A float that is not finite, or a dollar sign in a name, is what reading back cannot
restore. -/
theorem exact_restored {o : Operation} (h : o.WellFormed) :
    Exact o.restored o (o.isFinite = true ∧ o.Plain) := by
  constructor
  · rintro ⟨hf, hp⟩
    rw [restored, if_pos hf, redeclared_of_plain h hp]
    rfl
  · intro p hr he
    unfold restored at hr
    split at hr
    · rename_i hf
      have hr := Outcome.mapError_eq_ok.1 hr
      have he' : p.eq o = true := he
      simp only [Operation.eq, Bool.and_eq_true] at he'
      exact ⟨hf, plain_of_agree hr he'.1.1.2⟩
    · cases hr

end Operation

def Definition.operation? : Definition → Option Operation
  | .operation o => some o
  | _ => none

/-- All floats are finite and no variable is kept with a dollar sign. -/
def Definition.Stable (d : Definition) : Prop :=
  d.isFinite = true ∧ ∀ o ∈ d.operation?, o.Plain

theorem Definition.exact_restored {d : Definition} (h : d.WellFormed) :
    Exact d.restored d d.Stable := by
  cases d with
  | fragment f =>
    exact (Exact.onlyIf f.isFinite (Definition.fragment f)).congr
      (by simp [Stable, operation?, isFinite])
  | operation o =>
    exact ((Operation.exact_restored h).map (f := Definition.operation) fun _ => rfl).congr
      (by simp [Stable, operation?, isFinite])
  | unknown => exact ⟨fun _ => rfl, fun _ _ _ => by simp [Stable, operation?, isFinite]⟩

theorem Document.exact_restored {d : Document} (h : d.WellFormed) :
    Exact d.restored d (∀ x ∈ d.definitions, x.Stable) := by
  have hmap : d.restored = Document.mk <$> d.definitions.mapM Definition.restored := by
    rw [restored]
    cases d.definitions.mapM Definition.restored <;> rfl
  rw [hmap]
  exact (Exact.mapM fun x hx => Definition.exact_restored (h x hx)).map (f := Document.mk)
    fun _ => rfl

end QueryDocument
