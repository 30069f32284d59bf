import Bundler.Proofs.Graph.Index
import Bundler.Proofs.Graph.Reach

/-!
# Edits of a graph

Whatever edits a graph was made by, its indexes are what can be read off its modules: the importers
of an id are the ids of the modules that depend on it, and the ids with a path are those of the
modules with that path, each once and in order. What was replaced or removed leaves no trace.
-/

namespace Bundler

theorem Table.keys_sorted {κ α : Type} [Ord κ] (t : Table κ α) :
    t.keys.Pairwise fun a b => compare a b = .lt := List.pairwise_map.mpr t.sorted

theorem Table.nodup_of_sorted {κ : Type} [Ord κ] [Std.TransOrd κ] [Std.LawfulEqOrd κ] {l : List κ}
    (h : l.Pairwise fun a b => compare a b = .lt) : l.Nodup := by
  refine h.imp ?_
  rintro a b hab rfl
  exact Table.compare_self_ne_lt a hab

theorem Table.eq_of_sorted {κ : Type} [Ord κ] [Std.TransOrd κ] [Std.LawfulEqOrd κ] {l l' : List κ}
    (h : l.Pairwise fun a b => compare a b = .lt) (h' : l'.Pairwise fun a b => compare a b = .lt)
    (hm : ∀ a, a ∈ l ↔ a ∈ l') : l = l' := by
  refine List.Perm.eq_of_pairwise (fun a b _ _ hab hba => ?_) h h'
    ((List.perm_ext_iff_of_nodup (nodup_of_sorted h) (nodup_of_sorted h')).mpr hm)
  exact absurd (Std.TransCmp.lt_trans hab hba) (Table.compare_self_ne_lt a)

namespace ModuleGraph

/-! ## Edits -/

inductive Edit
  | insert (m : Module)
  | remove (id : ModuleId)
  | setEntry (name : String) (id : ModuleId)
  | setEntryError (name : String) (e : BuildError)
  | prune

def edit (g : ModuleGraph) : Edit → ModuleGraph
  | .insert m => g.insert m
  | .remove id => g.remove id
  | .setEntry name id => g.setEntry name id
  | .setEntryError name e => g.setEntryError name e
  | .prune => g.prune.1

def ofEdits (edits : List Edit) : ModuleGraph := edits.foldl edit {}

/-- What every edit keeps. -/
structure Kept (g : ModuleGraph) : Prop extends g.Indexed where
  named : ∀ id m, g.get? id = some m → m.id = id
  apart : ∀ name, g.entryErrors.contains name = true → g.entries.get? name = none

theorem Kept.edit {g : ModuleGraph} (h : g.Kept) (e : Edit) : (g.edit e).Kept := by
  cases e with
  | insert m =>
    refine ⟨h.toIndexed.insert m, fun id m' hm' => ?_, h.apart⟩
    rw [ModuleGraph.edit, get?_insert] at hm'
    split at hm'
    next hid => rw [hid, Option.some.inj hm']
    next => exact h.named id m' hm'
  | remove id =>
    refine ⟨h.toIndexed.remove id, fun id' m hm => ?_, fun name hn => ?_⟩
    · rw [ModuleGraph.edit, get?_remove] at hm
      split at hm
      · cases hm
      · exact h.named id' m hm
    · rw [ModuleGraph.edit, entryErrors_remove] at hn
      rw [ModuleGraph.edit, entries_remove]
      exact h.apart name hn
  | setEntry name id =>
    refine ⟨h.toIndexed.setEntry name id, h.named, fun n hn => ?_⟩
    have hn : (g.entryErrors.erase name).contains n = true := hn
    obtain ⟨e, he⟩ := Table.contains_iff.mp hn
    rw [Table.get?_erase] at he
    split at he
    next => cases he
    next hne =>
      have hget : (g.setEntry name id).entries.get? n = g.entries.get? n :=
        Table.get?_insert_of_ne g.entries hne id
      exact hget.trans (h.apart n (Table.contains_iff.mpr ⟨e, he⟩))
  | setEntryError name e =>
    refine ⟨h.toIndexed.setEntryError name e, h.named, fun n hn => ?_⟩
    have hget : (g.setEntryError name e).entries.get? n =
        if n = name then none else g.entries.get? n := Table.get?_erase g.entries name n
    refine hget.trans (ite_eq_left_iff.mpr fun hne => h.apart n ?_)
    exact ((Table.contains_insert g.entryErrors name n e).mp hn).resolve_left hne
  | prune =>
    refine ⟨h.toIndexed.prune, fun id m hm => ?_, fun name hn => ?_⟩
    · exact h.named id m (get?_prune_eq_some.mp hm).2
    · rw [ModuleGraph.edit, entryErrors_prune] at hn
      rw [ModuleGraph.edit, entries_prune]
      exact h.apart name hn

theorem kept_ofEdits (edits : List Edit) : (ofEdits edits).Kept := by
  induction edits using List.reverseRecOn with
  | nil => exact ⟨.empty, fun _ _ h => (nomatch h), fun _ h => nomatch h⟩
  | append_singleton edits e ih =>
    unfold ofEdits
    rw [List.foldl_append]
    exact ih.edit e

/-! ## What the indexes say -/

/-- An id that no index names. -/
def Untraced (g : ModuleGraph) (id : ModuleId) : Prop :=
  (∀ t, id ∉ g.importersOf t) ∧ ∀ p, id ∉ g.idsForPath p

/-- The indexes and the order of a graph are what its modules and its entries say. -/
structure InStep (g : ModuleGraph) : Prop where
  ids : g.ids.Pairwise fun a b => compare a b = .lt
  named : ∀ id m, g.get? id = some m → m.id = id
  importersOf : ∀ t, g.importersOf t =
    g.ids.filter fun id => (g.get? id).any fun m => m.dependencyIds.contains t
  idsForPath : ∀ p, g.idsForPath p = g.ids.filter fun id => id.path.text = p
  /-- No empty set is left behind. -/
  imported : ∀ t, g.importers.contains t = true ↔ ∃ id m, g.get? id = some m ∧ t ∈ m.dependencyIds
  paths : ∀ p, g.byPath.contains p = true ↔ ∃ id, g.contains id = true ∧ id.path.text = p
  entries : g.entries.keys.Pairwise fun a b => compare a b = .lt
  apart : ∀ name, ¬ (g.entries.contains name = true ∧ g.entryErrors.contains name = true)
  absent : ∀ id, g.contains id = false → g.Untraced id

section
variable {g : ModuleGraph}

theorem mem_importersOf {t id : ModuleId} : id ∈ g.importersOf t ↔ Index.Holds g.importers t id := by
  unfold importersOf Index.Holds
  rw [IdSet.mem_ids]
  cases g.importers.get? t with
  | none => simp [Table.contains, EmptyCollection.emptyCollection]
  | some s => simp

theorem Indexed.mem_importersOf (hg : g.Indexed) {t id : ModuleId} :
    id ∈ g.importersOf t ↔ ∃ m, g.get? id = some m ∧ t ∈ m.dependencyIds := by
  rw [ModuleGraph.mem_importersOf, hg.importers]
  simp only [Module.mem_dependencyIds]

theorem contains_iff_holds {κ : Type} [Ord κ] [Std.TransOrd κ] [Std.LawfulEqOrd κ]
    {t : Table κ IdSet} (ht : Index.Tight t) {k : κ} :
    t.contains k = true ↔ ∃ id, Index.Holds t k id := by
  rw [Table.contains_iff]
  constructor
  · rintro ⟨s, hs⟩
    obtain ⟨id, hid⟩ := Index.exists_of_isEmpty_eq_false (ht k s hs)
    exact ⟨id, s, hs, hid⟩
  · rintro ⟨id, s, hs, -⟩
    exact ⟨s, hs⟩

theorem Kept.inStep (h : g.Kept) : g.InStep where
  ids := Table.keys_sorted g.modules
  named := h.named
  importersOf t := by
    refine Table.eq_of_sorted (Table.keys_sorted _) ((Table.keys_sorted g.modules).filter _)
      fun id => ?_
    have hids : id ∈ g.ids ↔ ∃ m, g.get? id = some m := mem_ids.trans contains_iff
    have hmem : id ∈ g.importersOf t ↔ _ := h.mem_importersOf
    refine hmem.trans (Iff.trans ?_ List.mem_filter.symm)
    rw [Option.any_eq_true]
    simp only [List.contains_iff_mem]
    exact ⟨fun ⟨m, hm, ht⟩ => ⟨hids.mpr ⟨m, hm⟩, m, hm, ht⟩, And.right⟩
  idsForPath p := by
    refine Table.eq_of_sorted (Table.keys_sorted _) ((Table.keys_sorted g.modules).filter _)
      fun id => ?_
    have hmem : id ∈ g.idsForPath p ↔ _ := h.mem_idsForPath
    refine hmem.trans (Iff.trans ?_ List.mem_filter.symm)
    rw [decide_eq_true_eq]
    exact and_congr_left fun _ => mem_ids.symm
  imported t := by
    rw [contains_iff_holds h.tightImporters]
    simp only [h.importers, Module.mem_dependencyIds]
  paths p := by
    rw [contains_iff_holds h.tightByPath]
    simp only [h.byPath]
  entries := Table.keys_sorted g.entries
  apart name := by
    rintro ⟨hn, he⟩
    obtain ⟨id, hid⟩ := Table.contains_iff.mp hn
    exact nomatch hid.symm.trans (h.apart name he)
  absent id hid := by
    refine ⟨fun t ht => ?_, fun p hp => ?_⟩
    · obtain ⟨m, hm, -⟩ := h.mem_importersOf.mp ht
      exact nomatch (contains_eq_false.mp hid).symm.trans hm
    · exact nomatch hid.symm.trans (h.mem_idsForPath.mp hp).1

/-! ## What an edit leaves behind -/

/-- A module that is replaced leaves nothing behind. -/
theorem Indexed.insert_insert (hg : g.Indexed) {m m' : Module} (hid : m'.id = m.id) :
    (g.insert m).insert m' = g.insert m' := by
  refine ((hg.insert m).insert m').ext (hg.insert m') (fun id => ?_) rfl rfl
  rw [get?_insert, get?_insert, get?_insert, hid]
  by_cases h : id = m.id <;> simp [h]

/-- A module that is removed leaves nothing behind, nor does the one that it replaced. -/
theorem Indexed.remove_insert (hg : g.Indexed) (m : Module) :
    (g.insert m).remove m.id = g.remove m.id := by
  refine ((hg.insert m).remove m.id).ext (hg.remove m.id) (fun id => ?_) ?_ ?_
  · rw [get?_remove, get?_remove, get?_insert]
    by_cases h : id = m.id <;> simp [h]
  · rw [entries_remove, entries_remove, entries_insert]
  · rw [entryErrors_remove, entryErrors_remove, entryErrors_insert]

end

/-- After any edits, importers and paths are what the modules say, entries and modules stand in
order under their names and ids, and no entry has a module and an error. A module that is inserted
is there, and one that is removed is not; all others are as they were. An id that is removed is
named nowhere, and a graph does not show which modules were replaced or removed in it. -/
theorem ofEdits_inStep (edits : List Edit) :
    (ofEdits edits).InStep ∧
      (∀ (m : Module) (id : ModuleId), ((ofEdits edits).insert m).get? id =
        if id = m.id then some m else (ofEdits edits).get? id) ∧
      (∀ id id' : ModuleId, ((ofEdits edits).remove id).get? id' =
        if id' = id then none else (ofEdits edits).get? id') ∧
      (∀ id, ((ofEdits edits).remove id).Untraced id) ∧
      (∀ m m' : Module, ((ofEdits edits).insert m).insert { m' with id := m.id } =
        (ofEdits edits).insert { m' with id := m.id }) ∧
      ∀ m : Module, ((ofEdits edits).insert m).remove m.id = (ofEdits edits).remove m.id := by
  have h := kept_ofEdits edits
  refine ⟨h.inStep, get?_insert _, get?_remove _, fun id => ?_,
    fun m m' => h.insert_insert rfl, fun m => h.remove_insert m⟩
  refine (h.edit (.remove id)).inStep.absent id (contains_eq_false.mpr ?_)
  exact (get?_remove _ id id).trans (if_pos rfl)

end ModuleGraph

end Bundler
