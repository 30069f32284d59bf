import Mathlib.Data.List.Induction
import Mathlib.Data.List.Nodup
import Bundler.Graph.Basic
import Bundler.Proofs.Table

/-!
# The modules of a graph

What each operation on a graph does to a look-up of a module, and which parts of a graph it leaves
alone.
-/

namespace Bundler

namespace Module

section
variable {α : Type} [DecidableEq α] {l l' : List α} {a : α}

theorem distinct_concat_contains (l : List α) (a : α) : distinct (l ++ [a]) =
    if (distinct l).contains a then distinct l else distinct l ++ [a] := List.foldl_append ..

theorem mem_distinct : a ∈ distinct l ↔ a ∈ l := by
  induction l using List.reverseRecOn with
  | nil => rfl
  | append_singleton l b ih =>
    rw [distinct_concat_contains, List.mem_append, List.mem_singleton, ← ih]
    split
    next hb =>
      refine ⟨.inl, ?_⟩
      rintro (h | rfl)
      · exact h
      · exact List.contains_iff_mem.mp hb
    next => rw [List.mem_append, List.mem_singleton]

theorem distinct_concat (l : List α) (a : α) :
    distinct (l ++ [a]) = if a ∈ l then distinct l else distinct l ++ [a] := by
  rw [distinct_concat_contains]
  simp only [List.contains_iff_mem, mem_distinct]

theorem distinct_nodup (l : List α) : (distinct l).Nodup := by
  induction l using List.reverseRecOn with
  | nil => exact List.nodup_nil
  | append_singleton l a ih =>
    rw [distinct_concat]
    split
    next => exact ih
    next ha => exact List.concat_eq_append ▸ ih.concat fun h => ha (mem_distinct.mp h)

theorem distinct_filter (p : α → Bool) (l : List α) :
    distinct (l.filter p) = (distinct l).filter p := by
  induction l using List.reverseRecOn with
  | nil => rfl
  | append_singleton l a ih =>
    rw [List.filter_append, distinct_concat]
    cases hp : p a with
    | false =>
      rw [List.filter_cons_of_neg (by rw [hp]; decide), List.filter_nil, List.append_nil, ih]
      split
      next => rfl
      next => rw [List.filter_append, List.filter_cons_of_neg (by rw [hp]; decide), List.filter_nil,
          List.append_nil]
    | true =>
      rw [List.filter_cons_of_pos hp, List.filter_nil, distinct_concat, ih]
      simp only [List.mem_filter, hp, and_true]
      split
      next => rfl
      next => rw [List.filter_append, List.filter_cons_of_pos hp, List.filter_nil]

theorem distinct_append (l l' : List α) :
    distinct (l ++ l') = distinct l ++ distinct (l'.filter (!l.contains ·)) := by
  induction l' using List.reverseRecOn with
  | nil => simp [distinct]
  | append_singleton l' a ih =>
    rw [← List.append_assoc, distinct_concat, ih, List.filter_append]
    by_cases ha : a ∈ l
    · rw [if_pos (List.mem_append_left _ ha), List.filter_cons_of_neg (by simp [ha])]
      simp
    · rw [List.filter_cons_of_pos (by simp [ha]), List.filter_nil, distinct_concat]
      simp only [List.mem_append, ha, false_or, List.mem_filter]
      by_cases ha' : a ∈ l' <;> simp [ha, ha']

theorem distinct_append_congr {a b a' b' : List α} (ha : distinct a' = distinct a)
    (hb : distinct b' = distinct b) : distinct (a' ++ b') = distinct (a ++ b) := by
  have hmem : ∀ x, x ∈ a' ↔ x ∈ a := fun x => by rw [← mem_distinct, ha, mem_distinct]
  rw [distinct_append, distinct_append, distinct_filter, distinct_filter, ha, hb]
  exact congrArg _ (List.filter_congr fun x _ => by simp [hmem])

theorem distinct_cons (a : α) (l : List α) :
    distinct (a :: l) = a :: distinct (l.filter fun b => !decide (b = a)) := by
  refine (distinct_append [a] l).trans (congrArg (fun l => a :: distinct l) ?_)
  exact List.filter_congr fun b _ => by simp

end

theorem mem_dependencyIds {m : Module} {id : ModuleId} : id ∈ m.dependencyIds ↔ id ∈ m.targets :=
  mem_distinct

theorem mem_targets {m : Module} {id : ModuleId} :
    id ∈ m.targets ↔ ∃ d ∈ m.dependencies, d.target = some id := by
  simp [targets]

theorem isLive_iff {m : Module} : m.isLive = true ↔ m.external = false ∧ m.isLazy = false := by
  simp [isLive]

@[simp] theorem settled_isLazy (m : Module) : m.settled.isLazy = m.isLazy := by
  unfold settled
  split
  next => rfl
  next h =>
    have : m.isLazy = false := by simpa using h
    rw [this]
    unfold isLazy
    split <;> rfl

@[simp] theorem settled_id (m : Module) : m.settled.id = m.id := by
  unfold settled; split <;> rfl

@[simp] theorem settled_dependencies (m : Module) : m.settled.dependencies = m.dependencies := by
  unfold settled; split <;> rfl

@[simp] theorem settled_errors (m : Module) : m.settled.errors = m.errors := by
  unfold settled; split <;> rfl

@[simp] theorem settled_external (m : Module) : m.settled.external = m.external := by
  unfold settled; split <;> rfl

@[simp] theorem settled_fingerprint (m : Module) : m.settled.fingerprint = m.fingerprint := by
  unfold settled; split <;> rfl

@[simp] theorem settled_code (m : Module) : m.settled.code = m.code := by
  unfold settled; split <;> rfl

@[simp] theorem settled_isLive (m : Module) : m.settled.isLive = m.isLive := by
  simp [isLive]

@[simp] theorem settled_size (m : Module) : m.settled.size = m.size := by
  unfold settled; split <;> rfl

@[simp] theorem settled_targets (m : Module) : m.settled.targets = m.targets := by
  simp [targets]

end Module

namespace ModuleGraph

theorem contains_iff {g : ModuleGraph} {id : ModuleId} :
    g.contains id = true ↔ ∃ m, g.get? id = some m := Table.contains_iff

theorem contains_eq_false {g : ModuleGraph} {id : ModuleId} :
    g.contains id = false ↔ g.get? id = none := by
  unfold contains get? Table.contains
  cases g.modules.get? id <;> simp

theorem mem_ids {g : ModuleGraph} {id : ModuleId} : id ∈ g.ids ↔ g.contains id = true :=
  Table.mem_keys

/-- In a search: what was seen or waits, and is not seen after a step, waits still. -/
theorem mem_rest {seen rest : List ModuleId} {id b : ModuleId} (h : b ∈ seen ∨ b ∈ id :: rest)
    (hb : b ∉ id :: seen) : b ∈ rest := by
  rcases h with h | h
  · exact absurd (List.mem_cons_of_mem _ h) hb
  · exact (List.mem_cons.mp h).resolve_left fun e => hb (e ▸ List.mem_cons_self)

@[simp] theorem get?_empty (id : ModuleId) : ({} : ModuleGraph).get? id = none := rfl

/-! ## Look-ups -/

theorem get?_insert (g : ModuleGraph) (m : Module) (id : ModuleId) :
    (g.insert m).get? id = if id = m.id then some m else g.get? id :=
  Table.get?_insert g.modules m.id id m

theorem get?_setState (g : ModuleGraph) (id id' : ModuleId) (s : ModuleState) :
    (g.setState id s).get? id' =
      if id' = id then (g.get? id').map fun m => { m with state := s } else g.get? id' :=
  Table.get?_modify g.modules id id' _

theorem contains_setState (g : ModuleGraph) (id id' : ModuleId) (s : ModuleState) :
    (g.setState id s).contains id' = g.contains id' := by
  have h := get?_setState g id id' s
  unfold contains Table.contains
  unfold get? at h
  rw [h]
  split <;> simp

theorem get?_remove (g : ModuleGraph) (id id' : ModuleId) :
    (g.remove id).get? id' = if id' = id then none else g.get? id' := by
  unfold remove
  split
  next h =>
    split
    next e => rw [e, h]
    next => rfl
  next => exact Table.get?_erase g.modules id id'

theorem get?_settle (g : ModuleGraph) (id : ModuleId) :
    g.settle.get? id = (g.get? id).map Module.settled :=
  Table.get?_mapValues g.modules _ id

@[simp] theorem get?_setEntry (g : ModuleGraph) (name : String) (e id : ModuleId) :
    (g.setEntry name e).get? id = g.get? id := rfl

@[simp] theorem get?_setEntryError (g : ModuleGraph) (name : String) (e : BuildError)
    (id : ModuleId) : (g.setEntryError name e).get? id = g.get? id := rfl

theorem get?_foldl_remove (ids : List ModuleId) (g : ModuleGraph) (id : ModuleId) :
    (ids.foldl remove g).get? id = if id ∈ ids then none else g.get? id := by
  induction ids generalizing g with
  | nil => simp
  | cons a ids ih =>
    rw [List.foldl_cons, ih, get?_remove]
    by_cases h : id = a <;> by_cases h' : id ∈ ids <;> simp [h, h']

theorem get?_foldl_setState (ids : List ModuleId) (g : ModuleGraph) (id : ModuleId)
    (s : ModuleState) :
    (ids.foldl (fun g id => g.setState id s) g).get? id =
      if id ∈ ids then (g.get? id).map fun m => { m with state := s } else g.get? id := by
  induction ids generalizing g with
  | nil => simp
  | cons a ids ih =>
    rw [List.foldl_cons, ih, get?_setState]
    by_cases h : id = a <;> by_cases h' : id ∈ ids <;> simp [h, h', Function.comp_def]

/-! ## Entries -/

@[simp] theorem entries_insert (g : ModuleGraph) (m : Module) :
    (g.insert m).entries = g.entries := rfl

@[simp] theorem entryErrors_insert (g : ModuleGraph) (m : Module) :
    (g.insert m).entryErrors = g.entryErrors := rfl

@[simp] theorem entries_setState (g : ModuleGraph) (id : ModuleId) (s : ModuleState) :
    (g.setState id s).entries = g.entries := rfl

@[simp] theorem entryErrors_setState (g : ModuleGraph) (id : ModuleId) (s : ModuleState) :
    (g.setState id s).entryErrors = g.entryErrors := rfl

@[simp] theorem entries_remove (g : ModuleGraph) (id : ModuleId) :
    (g.remove id).entries = g.entries := by
  unfold remove; split <;> rfl

@[simp] theorem entryErrors_remove (g : ModuleGraph) (id : ModuleId) :
    (g.remove id).entryErrors = g.entryErrors := by
  unfold remove; split <;> rfl

@[simp] theorem entries_settle (g : ModuleGraph) : g.settle.entries = g.entries := rfl

@[simp] theorem entryErrors_settle (g : ModuleGraph) : g.settle.entryErrors = g.entryErrors := rfl

@[simp] theorem entries_foldl_remove (ids : List ModuleId) (g : ModuleGraph) :
    (ids.foldl remove g).entries = g.entries := by
  induction ids generalizing g with
  | nil => rfl
  | cons a ids ih => rw [List.foldl_cons, ih, entries_remove]

@[simp] theorem entryErrors_foldl_remove (ids : List ModuleId) (g : ModuleGraph) :
    (ids.foldl remove g).entryErrors = g.entryErrors := by
  induction ids generalizing g with
  | nil => rfl
  | cons a ids ih => rw [List.foldl_cons, ih, entryErrors_remove]

@[simp] theorem entries_foldl_setState (ids : List ModuleId) (g : ModuleGraph) (s : ModuleState) :
    (ids.foldl (fun g id => g.setState id s) g).entries = g.entries := by
  induction ids generalizing g with
  | nil => rfl
  | cons a ids ih => rw [List.foldl_cons, ih, entries_setState]

@[simp] theorem entryErrors_foldl_setState (ids : List ModuleId) (g : ModuleGraph)
    (s : ModuleState) :
    (ids.foldl (fun g id => g.setState id s) g).entryErrors = g.entryErrors := by
  induction ids generalizing g with
  | nil => rfl
  | cons a ids ih => rw [List.foldl_cons, ih, entryErrors_setState]

/-! ## Marking -/

theorem entries_markStale (g : ModuleGraph) (files : FileTree) (path : Path) :
    (g.markStale files path).1.entries = g.entries := by
  simp [markStale]

theorem entryErrors_markStale (g : ModuleGraph) (files : FileTree) (path : Path) :
    (g.markStale files path).1.entryErrors = g.entryErrors := by
  simp [markStale]

/-- Only live modules are marked, and nothing but their state changes. -/
theorem get?_markStale (g : ModuleGraph) (files : FileTree) (path : Path) (id : ModuleId) :
    (g.markStale files path).1.get? id =
      if id ∈ (g.markStale files path).2 then (g.get? id).map fun m => { m with state := .stale }
      else g.get? id :=
  get?_foldl_setState _ g id .stale

theorem markStale_eq_self {g : ModuleGraph} {files : FileTree} {path : Path}
    (h : (g.markStale files path).2 = []) : (g.markStale files path).1 = g := by
  unfold markStale at h ⊢
  dsimp only at h ⊢
  rw [h]
  rfl

theorem isLive_of_mem_markStale {g : ModuleGraph} {files : FileTree} {path : Path} {id : ModuleId}
    (h : id ∈ (g.markStale files path).2) : ∃ m, g.get? id = some m ∧ m.isLive = true := by
  have := (List.mem_filter.mp h).2
  simpa [Option.any_eq_true] using this

/-- What a change of a file affects is marked: the modules of the file, and those with a request
that found nothing. -/
theorem mem_markStale {g : ModuleGraph} {files : FileTree} {path : Path} {id : ModuleId} :
    id ∈ (g.markStale files path).2 ↔
      (∃ m, g.get? id = some m ∧ m.isLive = true) ∧
        (id ∈ g.idsForPath ((files.canonical path).toOption.getD path).text ∨
          (((files.canonical path).toOption.getD path).same path = false ∧
            id ∈ g.idsForPath path.text) ∨
          ∃ m, g.get? id = some m ∧ m.hasResolveError = true) := by
  have hu : id ∈ (g.modules.toList.filter (·.2.hasResolveError)).map (·.1) ↔
      ∃ m, g.get? id = some m ∧ m.hasResolveError = true := by
    simp only [List.mem_map, List.mem_filter, Prod.exists, exists_and_right, exists_eq_right,
      Table.mem_toList]
    rfl
  unfold markStale
  simp only [List.mem_filter, IdSet.mem_ids, IdSet.contains_ofList, List.mem_append, hu,
    Option.any_eq_true]
  rw [and_comm, or_assoc]
  refine and_congr Iff.rfl (or_congr Iff.rfl (or_congr ?_ Iff.rfl))
  cases ((files.canonical path).toOption.getD path).same path <;> simp

end ModuleGraph

end Bundler
