import Bundler.ModuleId
import Mathlib.Tactic.Common

/-!
# Laws of tables

A table is the function that its look-ups make up (`Table.ext_get?`): each operation is described
by what it does to a look-up, and two tables with equal look-ups are one.
-/

namespace Bundler

namespace Table

set_option linter.unusedSectionVars false

variable {κ : Type u} {α : Type v} {β : Type w} [Ord κ] [Std.TransOrd κ] [Std.LawfulEqOrd κ]

theorem compare_self_ne_lt (k : κ) : compare k k ≠ .lt := by
  simp [Std.ReflCmp.compare_self ]

theorem compare_eq_iff {a b : κ} : compare a b = .eq ↔ a = b :=
  ⟨Std.LawfulEqCmp.eq_of_compare, fun h => h ▸ Std.ReflCmp.compare_self⟩

theorem entries_nodup (t : Table κ α) : t.entries.Nodup := by
  refine t.sorted.imp ?_
  rintro a b h rfl
  exact compare_self_ne_lt _ h

theorem keys_nodup (t : Table κ α) : t.keys.Nodup := by
  unfold keys
  rw [List.nodup_iff_pairwise_ne, List.pairwise_map]
  refine t.sorted.imp ?_
  rintro a b h e
  rw [e] at h
  exact compare_self_ne_lt _ h

theorem ext_get? {s t : Table κ α} (h : ∀ k, s.get? k = t.get? k) : s = t := by
  have hm : ∀ e, e ∈ s.entries ↔ e ∈ t.entries := by
    rintro ⟨k, v⟩
    rw [← get?_eq_some_iff, ← get?_eq_some_iff, h k]
  have hp : s.entries.Perm t.entries :=
    (List.perm_ext_iff_of_nodup s.entries_nodup t.entries_nodup).mpr hm
  have he : s.entries = t.entries := by
    have hanti : ∀ a b : κ × α, a ∈ s.entries → b ∈ t.entries →
        compare a.1 b.1 = .lt → compare b.1 a.1 = .lt → a = b :=
      fun a _ _ _ hab hba => absurd (Std.TransCmp.lt_trans hab hba) (compare_self_ne_lt a.1)
    exact List.Perm.eq_of_pairwise hanti s.sorted t.sorted hp
  cases s; cases t; cases he; rfl

theorem get?_insert [DecidableEq κ] (t : Table κ α) (k k' : κ) (v : α) :
    (t.insert k v).get? k' = if k' = k then some v else t.get? k' := by
  split
  next h => rw [h, get?_insert_self]
  next h => exact get?_insert_of_ne t h v

theorem eq_of_get?_singleton [DecidableEq κ] {k k' : κ} {v v' : α}
    (h : (ofList [(k, v)]).get? k' = some v') : v' = v := by
  have hget : (ofList [(k, v)]).get? k' = if k' = k then some v else none :=
    get?_insert {} k k' v
  rw [hget] at h
  split at h
  · exact (Option.some.inj h).symm
  · cases h

theorem find_map (f : κ → α → β) (k : κ) (es : List (κ × α)) :
    find k (es.map fun e => (e.1, f e.1 e.2)) = (find k es).map (f k) := by
  induction es with
  | nil => rfl
  | cons e es ih =>
    simp only [List.map_cons, find]
    split
    next h => rw [compare_eq_iff.mp h]; rfl
    next => exact ih

theorem get?_mapValues (t : Table κ α) (f : κ → α → β) (k : κ) :
    (t.mapValues f).get? k = (t.get? k).map (f k) := find_map f k t.entries

theorem get?_modify [DecidableEq κ] (t : Table κ α) (k k' : κ) (f : α → α) :
    (t.modify k f).get? k' = if k' = k then (t.get? k').map f else t.get? k' := by
  unfold modify
  rw [get?_mapValues]
  by_cases h : k' = k
  · subst h
    simp [Std.ReflCmp.compare_self]
  · have : compare k k' ≠ .eq := fun e => h (compare_eq_iff.mp e).symm
    simp [this, h]

theorem find_filter (p : κ → α → Bool) (k : κ) {es : List (κ × α)}
    (h : es.Pairwise fun a b => compare a.1 b.1 = .lt) :
    find k (es.filter fun e => p e.1 e.2) = (find k es).filter (p k) := by
  apply Option.ext
  intro v
  rw [find_eq_some_iff (h.filter _), List.mem_filter, ← find_eq_some_iff h,
    Option.filter_eq_some_iff]

theorem get?_filter (t : Table κ α) (p : κ → α → Bool) (k : κ) :
    (t.filter p).get? k = (t.get? k).filter (p k) := find_filter p k t.sorted

theorem contains_iff {t : Table κ α} {k : κ} : t.contains k = true ↔ ∃ v, t.get? k = some v :=
  Option.isSome_iff_exists

theorem contains_insert [DecidableEq κ] (t : Table κ α) (k k' : κ) (v : α) :
    (t.insert k v).contains k' = true ↔ k' = k ∨ t.contains k' = true := by
  unfold contains
  rw [get?_insert]
  by_cases h : k' = k <;> simp [h]

theorem mem_keys {t : Table κ α} {k : κ} : k ∈ t.keys ↔ t.contains k = true := by
  unfold keys
  rw [contains_iff, List.mem_map]
  constructor
  · rintro ⟨⟨k', v⟩, h, rfl⟩
    exact ⟨v, (get?_eq_some_iff t).mpr h⟩
  · rintro ⟨v, h⟩
    exact ⟨(k, v), (get?_eq_some_iff t).mp h, rfl⟩

theorem mem_toList {t : Table κ α} {e : κ × α} : e ∈ t.toList ↔ t.get? e.1 = some e.2 :=
  (get?_eq_some_iff t).symm

theorem mem_values {t : Table κ α} {v : α} : v ∈ t.values ↔ ∃ k, t.get? k = some v := by
  unfold values
  rw [List.mem_map]
  constructor
  · rintro ⟨⟨k, v'⟩, h, rfl⟩
    exact ⟨k, (get?_eq_some_iff t).mpr h⟩
  · rintro ⟨k, h⟩
    exact ⟨(k, v), (get?_eq_some_iff t).mp h, rfl⟩

theorem isEmpty_iff {t : Table κ α} : t.isEmpty = true ↔ ∀ k, t.get? k = none := by
  constructor
  · intro h k
    have he : t.entries = [] := List.isEmpty_iff.mp h
    simp [get?, he, find]
  · intro h
    rcases t with ⟨_ | ⟨e, es⟩, hs⟩
    · rfl
    · have := h e.1
      simp [get?, find, Std.ReflCmp.compare_self] at this

end Table

/-! ## Sets of ids -/

namespace IdSet

theorem contains_add (s : IdSet) (id x : ModuleId) :
    (s.add id).contains x = true ↔ x = id ∨ s.contains x = true :=
  Table.contains_insert s id x ()

theorem contains_foldl_add (l : List ModuleId) (s : IdSet) (x : ModuleId) :
    (l.foldl add s).contains x = true ↔ x ∈ l ∨ s.contains x = true := by
  induction l generalizing s with
  | nil => simp
  | cons a l ih =>
    rw [List.foldl_cons, ih, contains_add, List.mem_cons]
    tauto

theorem contains_ofList {l : List ModuleId} {x : ModuleId} :
    (ofList l).contains x = true ↔ x ∈ l := by
  unfold ofList
  rw [contains_foldl_add]
  simp [Table.contains, EmptyCollection.emptyCollection]

theorem mem_ids {s : IdSet} {x : ModuleId} : x ∈ s.ids ↔ s.contains x = true := Table.mem_keys

theorem ext_contains {s t : IdSet} (h : ∀ x, s.contains x = true ↔ t.contains x = true) : s = t := by
  apply Table.ext_get?
  intro k
  have := h k
  unfold Table.contains at this
  cases hs : s.get? k <;> cases ht : t.get? k <;> simp_all

end IdSet

end Bundler
