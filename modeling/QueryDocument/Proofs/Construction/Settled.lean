import Mathlib.Data.List.Basic
import Mathlib.Data.List.Induction
import QueryDocument.Proofs.Construction.WellFormed

/-!
What a series of writes leaves in a keyed map: each key once, in the place of its first write and
with the value of its last.
-/
namespace QueryDocument.Keyed

variable {α : Type}

/-- New keys are appended in their order. -/
theorem foldl_insert_of_distinct {ps es : Keyed α} (h : Distinct (es ++ ps)) :
    ps.foldl (fun es p => insert p.1 p.2 es) es = es ++ ps := by
  induction ps generalizing es with
  | nil => simp
  | cons p ps ih =>
    have h' : Distinct ((es ++ [(p.1, p.2)]) ++ ps) := by simpa using h
    rw [List.foldl_cons, insert_of_notMem h.notMem_of_append, ih h']
    simp

/-- A map is made again from its own entries. -/
theorem ofPairs_of_distinct {es : Keyed α} (h : Distinct es) : ofPairs es = es := by
  have hnil : Distinct ([] ++ es) := h
  exact foldl_insert_of_distinct hnil

theorem Distinct.foldl_insert {es : Keyed α} (h : Distinct es) (ps : List (String × α)) :
    Distinct (ps.foldl (fun es p => Keyed.insert p.1 p.2 es) es) := by
  induction ps generalizing es with
  | nil => exact h
  | cons p ps ih => exact ih (h.insert p.1 p.2)

/-- Whatever the pairs, no key is in the map twice. -/
theorem distinct_ofPairs (ps : List (String × α)) : Distinct (ofPairs ps) := by
  have hnil : Distinct ([] : Keyed α) := List.nodup_nil
  exact hnil.foldl_insert ps

theorem mem_keys_insert {k k' : String} {v : α} {es : Keyed α} :
    k' ∈ keys (insert k v es) ↔ k' ∈ keys es ∨ k' = k := by
  rw [keys_insert]
  split
  · rename_i hk
    exact ⟨.inl, fun h => h.elim id fun he => he ▸ hk⟩
  · rw [List.mem_append, List.mem_singleton]

theorem mem_keys_foldl_insert {ps : List (String × α)} {es : Keyed α} {k : String} :
    k ∈ keys (ps.foldl (fun es p => insert p.1 p.2 es) es) ↔ k ∈ keys es ∨ k ∈ ps.map Prod.fst := by
  induction ps generalizing es with
  | nil => simp
  | cons p ps ih =>
    rw [List.foldl_cons, ih, mem_keys_insert, List.map_cons, List.mem_cons, or_assoc]

theorem mem_keys_of_ofPairs {ps : List (String × α)} {k : String} (h : k ∈ keys (ofPairs ps)) :
    k ∈ ps.map Prod.fst := by
  rcases mem_keys_foldl_insert.1 h with hk | hk
  · cases hk
  · exact hk

/-- The entry takes the place of the one that has its key, or else the last place. -/
def put (e : String × α) (es : Keyed α) : Keyed α :=
  if e.1 ∈ keys es then es.set ((keys es).idxOf e.1) e else es ++ [e]

theorem put_cons (e x : String × α) (es : Keyed α) :
    put e (x :: es) = if x.1 = e.1 then e :: es else x :: put e es := by
  by_cases hx : x.1 = e.1
  · simp [put, hx]
  · have hne : e.1 ≠ x.1 := fun h => hx h.symm
    have hidx : (keys (x :: es)).idxOf e.1 = (keys es).idxOf e.1 + 1 := by
      rw [keys_cons, List.idxOf_cons, beq_false_of_ne hx, cond_false]
    have hmem : e.1 ∈ keys (x :: es) ↔ e.1 ∈ keys es := by simp [hne]
    rw [if_neg hx, put, put, hidx]
    by_cases hk : e.1 ∈ keys es
    · rw [if_pos hk, if_pos (hmem.2 hk), List.set_cons_succ]
    · rw [if_neg hk, if_neg (mt hmem.1 hk), List.cons_append]

/-- Inserting by recursion is putting into the place that the key has. -/
theorem insert_eq_put (e : String × α) (es : Keyed α) : insert e.1 e.2 es = put e es := by
  induction es with
  | nil => rfl
  | cons x es ih => rw [put_cons, insert, ih]

/-- The entries that the writes leave, told from the writes as a whole. -/
def settled (ws : List (String × α)) : Keyed α :=
  (keys ws).eraseDups.filterMap fun k => (k, ·) <$> ws.reverse.lookup k

theorem ofPairs_concat (ws : List (String × α)) (w : String × α) :
    ofPairs (ws ++ [w]) = insert w.1 w.2 (ofPairs ws) := by
  simp [ofPairs]

theorem ofPairs_append (ws : List (String × α)) (ws' : List (String × α)) :
    ofPairs (ws ++ ws') = ws'.foldl (fun es w => insert w.1 w.2 es) (ofPairs ws) := by
  simp [ofPairs]

/-- A key has the place of its first write. -/
theorem keys_ofPairs (ws : List (String × α)) : keys (ofPairs ws) = (keys ws).eraseDups := by
  induction ws using List.reverseRecOn with
  | nil => rfl
  | append_singleton ws w ih =>
    rw [ofPairs_concat, keys_insert, ih]
    have hkeys : keys (ws ++ [w]) = keys ws ++ [w.1] := by simp [keys]
    rw [hkeys, List.eraseDups_append]
    by_cases hk : w.1 ∈ keys ws
    · simp [hk, List.removeAll]
    · simp [hk, List.removeAll, List.eraseDups_cons]

/-- A key has the value of its last write. -/
theorem lookup_ofPairs (ws : List (String × α)) (k : String) :
    (ofPairs ws).lookup k = ws.reverse.lookup k := by
  induction ws using List.reverseRecOn with
  | nil => rfl
  | append_singleton ws w ih =>
    rw [ofPairs_concat, List.reverse_concat, List.lookup_cons]
    by_cases hk : k = w.1
    · subst hk
      simp [lookup_insert_self]
    · rw [lookup_insert_of_ne hk, ih, beq_false_of_ne hk]

/-- A map that holds each key once is made up of what is found under its keys. -/
theorem filterMap_lookup {es : Keyed α} (h : Distinct es) :
    ((keys es).filterMap fun k => (k, ·) <$> es.lookup k) = es := by
  induction es with
  | nil => rfl
  | cons e es ih =>
    obtain ⟨hnot, hes⟩ := List.nodup_cons.1 h
    have hrest : ∀ k ∈ keys es, (e :: es).lookup k = es.lookup k := fun k hk => by
      have hne : k ≠ e.1 := fun he => hnot (he ▸ hk)
      rw [List.lookup_cons, beq_false_of_ne hne]
    have htail : ((keys es).filterMap fun k => (k, ·) <$> (e :: es).lookup k) = es :=
      (List.filterMap_congr fun k hk => by rw [hrest k hk]).trans (ih hes)
    have hhead : (e :: es).lookup e.1 = some e.2 := by rw [List.lookup_cons, beq_self_eq_true]
    rw [keys_cons, List.filterMap_cons, hhead]
    exact congrArg (e :: ·) htail

/-- The map is the settled list, as it has the same keys in the same order, with the same
values. -/
theorem ofPairs_eq_settled (ws : List (String × α)) : ofPairs ws = settled ws := by
  have h := filterMap_lookup (distinct_ofPairs ws)
  simp only [lookup_ofPairs, keys_ofPairs] at h
  exact h.symm

/-- An entry settles if its value was the last one written to its key. -/
theorem mem_settled_iff {ws : List (String × α)} {e : String × α} :
    e ∈ settled ws ↔ ws.reverse.lookup e.1 = some e.2 := by
  constructor
  · intro h
    obtain ⟨k, -, hk⟩ := List.mem_filterMap.1 h
    obtain ⟨v, hv, rfl⟩ := Option.map_eq_some_iff.1 hk
    exact hv
  · intro h
    rw [← ofPairs_eq_settled]
    exact mem_of_lookup ((lookup_ofPairs ws e.1).trans h)

theorem keys_settled (ws : List (String × α)) : keys (settled ws) = (keys ws).eraseDups := by
  rw [← ofPairs_eq_settled, keys_ofPairs]

theorem distinct_settled (ws : List (String × α)) : Distinct (settled ws) := by
  rw [← ofPairs_eq_settled]
  exact distinct_ofPairs ws

theorem lookup_settled (ws : List (String × α)) (k : String) :
    (settled ws).lookup k = ws.reverse.lookup k := by
  rw [← ofPairs_eq_settled, lookup_ofPairs]

/-- A write may be replaced, but its key is not lost. -/
theorem settled_eq_nil_iff {ws : List (String × α)} : settled ws = [] ↔ ws = [] := by
  constructor
  · intro h
    have hkeys := keys_settled ws
    rw [h] at hkeys
    cases ws with
    | nil => rfl
    | cons w ws =>
      rw [keys_cons, List.eraseDups_cons] at hkeys
      cases hkeys
  · rintro rfl
    rfl

end QueryDocument.Keyed
