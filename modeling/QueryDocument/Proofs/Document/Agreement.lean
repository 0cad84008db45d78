import Mathlib.Data.List.Nodup
import Mathlib.Data.List.Perm.Subperm
import QueryDocument.Proofs.Construction.WellFormed

/-!
When two maps agree. The order of their entries does not count, so that they agree exactly if their
entries, sorted by key, are the same up to what counts in the values.
-/
namespace QueryDocument.Keyed

variable {α β : Type}

instance (es : Keyed α) : Decidable (Distinct es) := inferInstanceAs (Decidable (keys es).Nodup)

/-- With its keys apart a map has every entry under its key. -/
theorem lookup_of_mem {k : String} {v : α} {es : Keyed α} (hd : Distinct es)
    (h : (k, v) ∈ es) : es.lookup k = some v := by
  induction es with
  | nil => cases h
  | cons e es ih =>
    obtain ⟨k', v'⟩ := e
    rw [Distinct, keys_cons, List.nodup_cons] at hd
    rw [List.lookup_cons]
    rcases List.mem_cons.1 h with he | he
    · cases he
      simp
    · have hne : k ≠ k' := by
        rintro rfl
        exact hd.1 (List.mem_map.2 ⟨(k, v), he, rfl⟩)
      rw [beq_eq_false_iff_ne.2 hne]
      exact ih hd.2 he

theorem mem_keys_of_lookup {k : String} {v : α} {es : Keyed α} (h : es.lookup k = some v) :
    k ∈ keys es := List.mem_map_of_mem (mem_of_lookup h)

theorem Distinct.nodup {es : Keyed α} (h : Distinct es) : es.Nodup := List.Nodup.of_map Prod.fst h

/-- The entries in the order of their keys. -/
def sorted (es : Keyed α) : Keyed α := es.mergeSort fun a b => decide (a.1 ≤ b.1)

theorem sorted_perm (es : Keyed α) : (sorted es).Perm es := List.mergeSort_perm es _

theorem mem_sorted {e : String × α} {es : Keyed α} : e ∈ sorted es ↔ e ∈ es :=
  (sorted_perm es).mem_iff

theorem pairwise_sorted (es : Keyed α) : (sorted es).Pairwise fun a b => a.1 ≤ b.1 := by
  have htrans (a b c : String × α) (hab : decide (a.1 ≤ b.1) = true)
      (hbc : decide (b.1 ≤ c.1) = true) : decide (a.1 ≤ c.1) = true :=
    decide_eq_true (String.le_trans (of_decide_eq_true hab) (of_decide_eq_true hbc))
  have htotal (a b : String × α) : (decide (a.1 ≤ b.1) || decide (b.1 ≤ a.1)) = true := by
    rw [Bool.or_eq_true, decide_eq_true_iff, decide_eq_true_iff]
    exact String.le_total a.1 b.1
  exact (List.pairwise_mergeSort htrans htotal es).imp of_decide_eq_true

/-- Entries of distinct keys can be sorted in one way only. -/
theorem sorted_eq_iff {xs ys : Keyed α} (h : Distinct xs) : sorted xs = sorted ys ↔ xs.Perm ys := by
  constructor
  · intro he
    exact (sorted_perm xs).symm.trans (he ▸ sorted_perm ys)
  · intro hp
    refine List.Perm.eq_of_pairwise ?_ (pairwise_sorted xs) (pairwise_sorted ys)
      ((sorted_perm xs).trans (hp.trans (sorted_perm ys).symm))
    intro a b ha hb hab hba
    have hb' := lookup_of_mem h (hp.mem_iff.2 (mem_sorted.1 hb))
    rw [← String.le_antisymm hab hba, lookup_of_mem h (mem_sorted.1 ha)] at hb'
    exact Prod.ext (String.le_antisymm hab hba) (Option.some.inj hb')

/-- Replaces every value and leaves the keys as they are. -/
def mapValues (f : α → β) (es : Keyed α) : Keyed β := es.map fun e => (e.1, f e.2)

theorem keys_mapValues (f : α → β) (es : Keyed α) : keys (mapValues f es) = keys es := by
  simp [mapValues, keys]

theorem Distinct.mapValues {es : Keyed α} (h : Distinct es) (f : α → β) :
    Distinct (Keyed.mapValues f es) := by
  rwa [Distinct, keys_mapValues]

theorem mem_mapValues {f : α → β} {es : Keyed α} {k : String} {w : β} :
    (k, w) ∈ mapValues f es ↔ ∃ v, (k, v) ∈ es ∧ f v = w := by
  simp [mapValues]

/-- Each entry of the one map has a partner in the other, and there are none left over there,
which the lengths tell. -/
theorem agree_iff {eq : α → α → Bool} {xs ys : Keyed α} :
    agree eq xs ys = true ↔ xs.length = ys.length ∧
      ∀ x ∈ xs, ∃ y, ys.lookup x.1 = some y ∧ eq x.2 y = true := by
  rw [agree, Bool.and_eq_true, beq_iff_eq, List.all_eq_true]
  refine and_congr_right fun _ => forall₂_congr fun x _ => ?_
  cases ys.lookup x.1 <;> simp

/-- If all entries of a map occur in another one of its size, there are no others. -/
theorem perm_of_subset {xs ys : Keyed α} (h : Distinct xs) (hlen : xs.length = ys.length)
    (hsub : xs ⊆ ys) : xs.Perm ys :=
  (List.subperm_of_subset h.nodup hsub).perm_of_length_le (Nat.le_of_eq hlen.symm)

/-- If the equality of values is that of their images, for some of them, two maps agree exactly if
all their values are of those and the maps of the images are the same but for the order. -/
theorem agree_iff_perm {eq : α → α → Bool} {p : α → Prop} {f : α → β} {xs ys : Keyed α}
    (hx : Distinct xs) (hy : Distinct ys)
    (h : ∀ x ∈ xs, ∀ y ∈ ys, eq x.2 y.2 = true ↔ p x.2 ∧ p y.2 ∧ f x.2 = f y.2) :
    agree eq xs ys = true ↔ (∀ x ∈ xs, p x.2) ∧ (∀ y ∈ ys, p y.2) ∧
      (mapValues f xs).Perm (mapValues f ys) := by
  have hlen : (mapValues f xs).length = (mapValues f ys).length ↔ xs.length = ys.length := by
    simp [mapValues]
  rw [agree_iff]
  constructor
  · rintro ⟨hl, hall⟩
    -- Keys that are apart and equally many on both sides: it is enough to find each.
    have hperm : (mapValues f xs).Perm (mapValues f ys) := by
      refine perm_of_subset (hx.mapValues f) (hlen.2 hl) ?_
      rintro ⟨k, w⟩ hw
      obtain ⟨v, hv, rfl⟩ := mem_mapValues.1 hw
      obtain ⟨y, hy', he⟩ := hall (k, v) hv
      have hmem := mem_of_lookup hy'
      exact mem_mapValues.2 ⟨y, hmem, ((h _ hv _ hmem).1 he).2.2.symm⟩
    refine ⟨fun x hx' => ?_, fun y hy' => ?_, hperm⟩
    · obtain ⟨y, hlookup, he⟩ := hall x hx'
      exact ((h x hx' _ (mem_of_lookup hlookup)).1 he).1
    · obtain ⟨v, hv, -⟩ := mem_mapValues.1 (hperm.mem_iff.2 (mem_mapValues.2 ⟨y.2, hy', rfl⟩))
      obtain ⟨y', hlookup, he⟩ := hall _ hv
      obtain rfl : y.2 = y' := Option.some.inj ((lookup_of_mem hy hy').symm.trans hlookup)
      exact ((h _ hv _ hy').1 he).2.1
  · rintro ⟨hpx, hpy, hperm⟩
    refine ⟨hlen.1 hperm.length_eq, fun x hx' => ?_⟩
    obtain ⟨y, hy', he⟩ := mem_mapValues.1 (hperm.mem_iff.1 (mem_mapValues.2 ⟨x.2, hx', rfl⟩))
    exact ⟨y, lookup_of_mem hy hy', (h x hx' _ hy').2 ⟨hpx x hx', hpy _ hy', he.symm⟩⟩

/-- Two maps that agree have the same keys. -/
theorem keys_subset_of_agree {eq : α → α → Bool} {xs ys : Keyed α} (hx : Distinct xs)
    (h : agree eq xs ys = true) : ∀ k ∈ keys ys, k ∈ keys xs := by
  obtain ⟨hlen, hall⟩ := agree_iff.1 h
  have hsub : keys xs ⊆ keys ys := by
    intro k hk
    obtain ⟨e, he, rfl⟩ := List.mem_map.1 hk
    obtain ⟨v, hlookup, -⟩ := hall e he
    exact mem_keys_of_lookup hlookup
  have hlen' : (keys ys).length = (keys xs).length := by
    rw [keys, keys, List.length_map, List.length_map, hlen]
  have hperm := (List.subperm_of_subset hx hsub).perm_of_length_le (Nat.le_of_eq hlen')
  exact fun k hk => hperm.mem_iff.2 hk

/-- Two maps agree if under every key they hold equal values or both nothing. -/
theorem agree_iff_lookup {eq : α → α → Bool} {xs ys : Keyed α} (hx : Distinct xs)
    (hy : Distinct ys) : agree eq xs ys = true ↔
      ∀ k, Option.Rel (fun x y => eq x y = true) (xs.lookup k) (ys.lookup k) := by
  constructor
  · intro h k
    obtain ⟨-, hall⟩ := agree_iff.1 h
    cases hxk : xs.lookup k with
    | some x =>
      obtain ⟨y, hyk, he⟩ := hall (k, x) (mem_of_lookup hxk)
      rw [hyk]
      exact .some he
    | none =>
      -- The two have equally many keys, so that the other has none of its own.
      have hyk : ys.lookup k = none := by
        rw [← Option.not_isSome_iff_eq_none, Option.isSome_iff_exists]
        rintro ⟨y, hyk⟩
        obtain ⟨e, he, rfl⟩ := List.mem_map.1
          (keys_subset_of_agree hx h k (mem_keys_of_lookup hyk))
        rw [lookup_of_mem hx he] at hxk
        cases hxk
      rw [hyk]
      exact .none
  · intro h
    have hfound (e : String × α) (he : e ∈ xs) : ∃ y, ys.lookup e.1 = some y ∧ eq e.2 y = true := by
      have hk := h e.1
      rw [lookup_of_mem hx he] at hk
      generalize ys.lookup e.1 = found at hk
      cases hk with
      | some he => exact ⟨_, rfl, he⟩
    have hfound' (e : String × α) (he : e ∈ ys) : ∃ x, xs.lookup e.1 = some x := by
      have hk := h e.1
      rw [lookup_of_mem hy he] at hk
      generalize xs.lookup e.1 = found at hk
      cases hk with
      | some _ => exact ⟨_, rfl⟩
    -- Only now the lengths are known to agree.
    have hkeys : (keys xs).Perm (keys ys) := by
      refine (List.perm_ext_iff_of_nodup hx hy).2 fun k => ⟨fun hk => ?_, fun hk => ?_⟩
      · obtain ⟨e, he, rfl⟩ := List.mem_map.1 hk
        obtain ⟨y, hlookup, -⟩ := hfound e he
        exact mem_keys_of_lookup hlookup
      · obtain ⟨e, he, rfl⟩ := List.mem_map.1 hk
        obtain ⟨x, hlookup⟩ := hfound' e he
        exact mem_keys_of_lookup hlookup
    exact agree_iff.2 ⟨by simpa [keys] using hkeys.length_eq, hfound⟩

end QueryDocument.Keyed
