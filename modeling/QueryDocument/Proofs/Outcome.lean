/-!
Computations that may fail, by what they did when they succeeded.
-/
namespace QueryDocument.Outcome

variable {ε ε' α β : Type}

@[simp] theorem ok_bind (a : α) (f : α → Except ε β) : (.ok a >>= f) = f a := rfl
@[simp] theorem error_bind (e : ε) (f : α → Except ε β) : (.error e >>= f) = .error e := rfl
@[simp] theorem pure_eq (a : α) : (pure a : Except ε α) = .ok a := rfl
@[simp] theorem map_ok (f : α → β) (a : α) : f <$> (.ok a : Except ε α) = .ok (f a) := rfl
@[simp] theorem map_error (f : α → β) (e : ε) : f <$> (.error e : Except ε α) = .error e := rfl
theorem mapError_error (f : ε → ε') (e : ε) :
    (.error e : Except ε α).mapError f = .error (f e) := rfl
@[simp] theorem mapError_ok (f : ε → ε') (a : α) : (.ok a : Except ε α).mapError f = .ok a := rfl

/-- A sequence succeeds only if both parts do. -/
theorem bind_eq_ok {x : Except ε α} {f : α → Except ε β} {b : β} :
    (x >>= f) = .ok b ↔ ∃ a, x = .ok a ∧ f a = .ok b := by
  cases x with
  | error e => simp
  | ok a => simp

theorem map_eq_ok {x : Except ε α} {f : α → β} {b : β} :
    f <$> x = .ok b ↔ ∃ a, x = .ok a ∧ f a = b := by
  cases x with
  | error e => simp
  | ok a => simp

/-- Another error does not make a success of a failure. -/
theorem mapError_eq_ok {x : Except ε α} {f : ε → ε'} {a : α} :
    x.mapError f = .ok a ↔ x = .ok a := by
  cases x with
  | error e =>
    rw [mapError_error]
    simp
  | ok a => simp

theorem forall_of_mapM {f : α → Except ε β} {P : β → Prop} {xs : List α}
    (h : ∀ x ∈ xs, ∀ y, f x = .ok y → P y) {ys : List β} (hm : xs.mapM f = .ok ys) :
    ∀ y ∈ ys, P y := by
  induction xs generalizing ys with
  | nil =>
    cases hm
    simp
  | cons x xs ih =>
    rw [List.mapM_cons] at hm
    obtain ⟨y, hy, hm⟩ := bind_eq_ok.1 hm
    obtain ⟨zs, hzs, hm⟩ := bind_eq_ok.1 hm
    cases hm
    rw [List.forall_mem_cons] at h ⊢
    exact ⟨h.1 y hy, ih h.2 hzs⟩

/-- Loops that agree on the elements of the list agree, and in the error too. -/
theorem mapM_congr {f g : α → Except ε β} {xs : List α} (h : ∀ x ∈ xs, f x = g x) :
    xs.mapM f = xs.mapM g := by
  induction xs with
  | nil => rfl
  | cons x xs ih =>
    rw [List.forall_mem_cons] at h
    rw [List.mapM_cons, List.mapM_cons, h.1, ih h.2]

/-- What is done to each result may be done afterwards. -/
theorem mapM_map {γ : Type} (f : α → Except ε β) (g : β → γ) (xs : List α) :
    (xs.mapM fun x => g <$> f x) = List.map g <$> xs.mapM f := by
  induction xs with
  | nil => rfl
  | cons x xs ih =>
    rw [List.mapM_cons, List.mapM_cons, ih]
    cases f x with
    | error e => rfl
    | ok y => cases xs.mapM f <;> rfl

theorem mapM_ok_self {f : α → Except ε α} {xs : List α} (h : ∀ x ∈ xs, f x = .ok x) :
    xs.mapM f = .ok xs := by
  induction xs with
  | nil => rfl
  | cons x xs ih =>
    rw [List.forall_mem_cons] at h
    rw [List.mapM_cons, h.1, ih h.2]
    rfl

/-- A loop gets through exactly if every step would by itself. No step depends on an earlier
one. -/
theorem exists_mapM_iff {f : α → Except ε β} {xs : List α} :
    (∃ ys, xs.mapM f = .ok ys) ↔ ∀ x ∈ xs, ∃ y, f x = .ok y := by
  induction xs with
  | nil => exact ⟨fun _ => by simp, fun _ => ⟨[], rfl⟩⟩
  | cons x xs ih =>
    rw [List.forall_mem_cons, ← ih, List.mapM_cons]
    constructor
    · rintro ⟨ys, h⟩
      obtain ⟨y, hy, h⟩ := bind_eq_ok.1 h
      obtain ⟨zs, hzs, -⟩ := bind_eq_ok.1 h
      exact ⟨⟨y, hy⟩, ⟨zs, hzs⟩⟩
    · rintro ⟨⟨y, hy⟩, ⟨zs, hzs⟩⟩
      exact ⟨y :: zs, by rw [hy, hzs]; rfl⟩

theorem forM_ok {f : α → Except ε Unit} {xs : List α} (h : ∀ x ∈ xs, f x = .ok ()) :
    xs.forM f = .ok () := by
  induction xs with
  | nil => rfl
  | cons x xs ih =>
    rw [List.forall_mem_cons] at h
    change (f x >>= fun _ => xs.forM f) = _
    rw [h.1, ok_bind]
    exact ih h.2

/-- It succeeds with `a` if `p` holds, and fails with an error of the class `E` if not. -/
structure Settles (E : ε → Prop) (r : Except ε α) (p : Prop) (a : α) : Prop where
  accepts : p → r = .ok a
  refuses : ¬ p → ∃ e, r = .error e ∧ E e

namespace Settles

variable {E : ε → Prop} {E' : ε' → Prop} {r : Except ε α} {p q : Prop} {a : α} {b : β}

theorem ok (a : α) : Settles E (.ok a) True a := ⟨fun _ => rfl, fun h => absurd trivial h⟩

theorem congr (h : Settles E r p a) (hpq : p ↔ q) : Settles E r q a :=
  ⟨fun hq => h.accepts (hpq.2 hq), fun hq => h.refuses fun hp => hq (hpq.1 hp)⟩

/-- The second condition is only asked of what the first step gives, and an error of either step
is of the class. -/
theorem bind {f : α → Except ε β} (h : Settles E r p a) (hf : Settles E (f a) q b) :
    Settles E (r >>= f) (p ∧ q) b := by
  constructor
  · rintro ⟨hp, hq⟩
    rw [h.accepts hp, ok_bind, hf.accepts hq]
  · intro hn
    by_cases hp : p
    · obtain ⟨e, he, hE⟩ := hf.refuses fun hq => hn ⟨hp, hq⟩
      exact ⟨e, by rw [h.accepts hp, ok_bind, he], hE⟩
    · obtain ⟨e, he, hE⟩ := h.refuses hp
      exact ⟨e, by rw [he, error_bind], hE⟩

/-- A failure stays one under any stronger condition, whatever would have come of it. -/
theorem of_error {e : ε} (h : Settles E (.error e : Except ε α) p a) (hqp : q → p) (b : β) :
    Settles E (.error e : Except ε β) q b := by
  have hp : ¬ p := fun hp => nomatch h.accepts hp
  obtain ⟨e', he, hE⟩ := h.refuses hp
  cases he
  exact ⟨fun hq => absurd (hqp hq) hp, fun _ => ⟨e, rfl, hE⟩⟩

theorem map (h : Settles E r p a) (f : α → β) : Settles E (f <$> r) p (f a) := by
  constructor
  · intro hp
    rw [h.accepts hp, map_ok]
  · intro hp
    obtain ⟨e, he, hE⟩ := h.refuses hp
    exact ⟨e, by rw [he, map_error], hE⟩

/-- A class of errors is carried over to the errors they are made into. -/
theorem mapError (h : Settles E r p a) {f : ε → ε'} (hE : ∀ e, E e → E' (f e)) :
    Settles E' (r.mapError f) p a := by
  constructor
  · intro hp
    rw [h.accepts hp, mapError_ok]
  · intro hp
    obtain ⟨e, he, h⟩ := h.refuses hp
    exact ⟨f e, by rw [he, mapError_error], hE e h⟩

/-- Since failing and succeeding exclude each other, the condition is exact. -/
theorem ok_iff (h : Settles E r p a) : (∃ a', r = .ok a') ↔ p := by
  constructor
  · rintro ⟨a', ha'⟩
    refine Classical.byContradiction fun hp => ?_
    obtain ⟨e, he, -⟩ := h.refuses hp
    rw [ha'] at he
    cases he
  · exact fun hp => ⟨a, h.accepts hp⟩

end Settles

/-- The outcome is the first of the faults, and a result if there are none. -/
def Reports (faults : List ε) : Except ε α → Prop
  | .ok _ => faults = []
  | .error e => faults.head? = some e

namespace Reports

variable {os ps : List ε} {r : Except ε α}

theorem ok (a : α) : Reports [] (.ok a : Except ε α) := rfl

theorem error (e : ε) : Reports [e] (.error e : Except ε α) := rfl

/-- After a failure the second step would not have been tried, but its reports are behind the
first one and do not matter. -/
theorem bind {k : α → Except ε β} (h : Reports os r) (hk : ∀ a, Reports ps (k a)) :
    Reports (os ++ ps) (r >>= k) := by
  cases r with
  | ok a =>
    have hos : os = [] := h
    subst hos
    exact hk a
  | error e =>
    have hos : os.head? = some e := h
    change (os ++ ps).head? = some e
    rw [List.head?_append, hos, Option.some_or]

theorem pure {f : α → β} (h : Reports os r) :
    Reports os (r >>= fun a => Pure.pure (f a)) := by
  have hb : Reports (os ++ []) (r >>= fun a => Pure.pure (f a)) := h.bind fun a => ok (f a)
  rwa [List.append_nil] at hb

/-- A loop reports what its elements would, the first failing one first. -/
theorem mapM {f : α → Except ε β} {os : α → List ε} (h : ∀ x, Reports (os x) (f x))
    (xs : List α) : Reports (xs.flatMap os) (xs.mapM f) := by
  induction xs with
  | nil => exact ok []
  | cons x xs ih =>
    rw [List.mapM_cons, List.flatMap_cons]
    exact (h x).bind fun _ => ih.pure

/-- It succeeds exactly if there is nothing to report. -/
theorem ok_iff (h : Reports os r) : (∃ a, r = .ok a) ↔ os = [] := by
  cases r with
  | ok a => exact ⟨fun _ => h, fun _ => ⟨a, rfl⟩⟩
  | error e =>
    have hos : os.head? = some e := h
    constructor
    · rintro ⟨a, ha⟩
      cases ha
    · rintro rfl
      cases hos

/-- The error is the first report. -/
theorem error_iff (h : Reports os r) (e : ε) :
    r = .error e ↔ os.head? = some e := by
  cases r with
  | ok a =>
    have hos : os = [] := h
    simp [hos]
  | error e' =>
    have hos : os.head? = some e' := h
    simp [hos]

end Reports

end QueryDocument.Outcome
