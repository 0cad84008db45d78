/-!
Maps that keep the order in which their keys first appeared, as lists of entries. Writing to a key
that is present changes its value and leaves it in its place; a new key goes to the end.
-/
namespace QueryDocument

abbrev Keyed (α : Type u) := List (String × α)

namespace Keyed

def keys (es : Keyed α) : List String := es.map Prod.fst

def insert (k : String) (v : α) : Keyed α → Keyed α
  | [] => [(k, v)]
  | e :: es => if e.1 = k then (k, v) :: es else e :: insert k v es

/-- Writes the pairs one after the other into an empty map. -/
def ofPairs (ps : List (String × α)) : Keyed α :=
  ps.foldl (fun es p => insert p.1 p.2 es) []

/-- Equal as maps: as many entries, and under every key equal values, in whatever order. -/
def agree (eq : α → α → Bool) (xs ys : Keyed α) : Bool :=
  xs.length == ys.length && xs.all fun x =>
    match ys.lookup x.1 with
    | some y => eq x.2 y
    | none => false

@[simp] theorem keys_nil : keys ([] : Keyed α) = [] := rfl
@[simp] theorem keys_cons (e : String × α) (es : Keyed α) : keys (e :: es) = e.1 :: keys es := rfl
@[simp] theorem insert_nil (k : String) (v : α) : insert k v [] = [(k, v)] := rfl

/-- Inserting under a key that is there moves no entry. -/
theorem keys_insert (k : String) (v : α) (es : Keyed α) :
    keys (insert k v es) = if k ∈ keys es then keys es else keys es ++ [k] := by
  induction es with
  | nil => simp
  | cons e es ih =>
    by_cases h : e.1 = k
    · simp [insert, h]
    · have h' : ¬ k = e.1 := fun he => h he.symm
      by_cases hm : k ∈ keys es <;> simp [insert, h, h', ih, hm]

theorem lookup_insert_self (k : String) (v : α) (es : Keyed α) :
    (insert k v es).lookup k = some v := by
  induction es with
  | nil => simp
  | cons e es ih =>
    obtain ⟨a, b⟩ := e
    by_cases h : a = k
    · simp [insert, h]
    · have h' : (k == a) = false := by simpa using fun he => h he.symm
      simp [insert, h, List.lookup_cons, h', ih]

/-- Other keys keep their values. -/
theorem lookup_insert_of_ne {k k' : String} (hne : k' ≠ k) (v : α) (es : Keyed α) :
    (insert k v es).lookup k' = es.lookup k' := by
  have hb : (k' == k) = false := by simpa using hne
  induction es with
  | nil => simp [List.lookup_cons, hb]
  | cons e es ih =>
    obtain ⟨a, b⟩ := e
    by_cases h : a = k
    · simp [insert, h, List.lookup_cons, hb]
    · simp [insert, h, List.lookup_cons, ih]

end Keyed
end QueryDocument
