import Bundler.Proofs.Graph.Modules

/-!
# The indexes of a graph

`ModuleGraph.Indexed` says that the importers of an id and the ids of a path are those that can be
read off the modules. Every operation keeps this, so two such graphs with the same modules and
entries are equal (`ModuleGraph.Indexed.ext`).
-/

namespace Bundler

/-! ## Tables of sets -/

namespace Index

set_option linter.unusedSectionVars false

/-- `id` is in the set of `k`. -/
def Holds {κ : Type} [Ord κ] (t : Table κ IdSet) (k : κ) (id : ModuleId) : Prop :=
  ∃ s, t.get? k = some s ∧ s.contains id = true

/-- No key has an empty set. -/
def Tight {κ : Type} [Ord κ] (t : Table κ IdSet) : Prop :=
  ∀ k s, t.get? k = some s → s.isEmpty = false

theorem exists_of_isEmpty_eq_false {s : IdSet} (h : s.isEmpty = false) :
    ∃ id, s.contains id = true := by
  by_contra hn
  rw [not_exists] at hn
  have : s.isEmpty = true := Table.isEmpty_iff.mpr fun k => by
    have := hn k
    simpa [Table.contains] using this
  rw [this] at h
  cases h

theorem isEmpty_eq_false {s : IdSet} {id : ModuleId} (h : s.contains id = true) :
    s.isEmpty = false := by
  rw [Bool.eq_false_iff]
  intro he
  have := Table.isEmpty_iff.mp he id
  simp [Table.contains, this] at h

section
variable {κ : Type} [Ord κ] [Std.TransOrd κ] [Std.LawfulEqOrd κ] [DecidableEq κ]

theorem holds_addTo (t : Table κ IdSet) (k k' : κ) (id x : ModuleId) :
    Holds (ModuleGraph.addTo t k id) k' x ↔ (k' = k ∧ x = id) ∨ Holds t k' x := by
  unfold Holds ModuleGraph.addTo
  rw [Table.get?_insert]
  by_cases h : k' = k
  · subst h
    simp only [ite_true, Option.some.injEq, exists_eq_left', IdSet.contains_add, true_and]
    cases t.get? k' with
    | none => simp [Table.contains, EmptyCollection.emptyCollection]
    | some s => simp
  · simp [h]

theorem tight_addTo {t : Table κ IdSet} (ht : Tight t) (k : κ) (id : ModuleId) :
    Tight (ModuleGraph.addTo t k id) := by
  intro k' s h
  unfold ModuleGraph.addTo at h
  rw [Table.get?_insert] at h
  split at h
  next =>
    cases h
    exact isEmpty_eq_false ((IdSet.contains_add _ id id).mpr (.inl rfl))
  next => exact ht k' s h

theorem contains_erase (s : IdSet) (id x : ModuleId) :
    (s.erase id).contains x = true ↔ x ≠ id ∧ s.contains x = true := by
  unfold Table.contains
  rw [Table.get?_erase]
  by_cases h : x = id <;> simp [h]

theorem holds_removeFrom (t : Table κ IdSet) (k k' : κ) (id x : ModuleId) :
    Holds (ModuleGraph.removeFrom t k id) k' x ↔ ¬ (k' = k ∧ x = id) ∧ Holds t k' x := by
  unfold ModuleGraph.removeFrom
  split
  next hn =>
    refine ⟨fun h => ⟨?_, h⟩, And.right⟩
    rintro ⟨rfl, rfl⟩
    obtain ⟨s, hs, _⟩ := h
    rw [hn] at hs
    cases hs
  next s hs =>
    dsimp only
    by_cases hk : k' = k
    · subst hk
      split
      next he =>
        have hgone : ¬ Holds (t.erase k') k' x := by
          rintro ⟨s', h', _⟩
          rw [Table.get?_erase, if_pos rfl] at h'
          cases h'
        refine ⟨fun h => absurd h hgone, ?_⟩
        rintro ⟨hne, s', hs', hx⟩
        rw [hs] at hs'
        cases hs'
        have : (s.erase id).contains x = true := (contains_erase s id x).mpr ⟨fun e => hne ⟨rfl, e⟩, hx⟩
        rw [isEmpty_eq_false this] at he
        cases he
      next =>
        unfold Holds
        rw [Table.get?_insert, if_pos rfl, hs]
        simp [contains_erase]
    · have hsame : ∀ t' : Table κ IdSet, t'.get? k' = t.get? k' →
          (Holds t' k' x ↔ ¬ (k' = k ∧ x = id) ∧ Holds t k' x) := by
        intro t' h
        unfold Holds
        rw [h]
        simp [hk]
      split
      next => exact hsame _ (by rw [Table.get?_erase, if_neg hk])
      next => exact hsame _ (by rw [Table.get?_insert, if_neg hk])

theorem tight_removeFrom {t : Table κ IdSet} (ht : Tight t) (k : κ) (id : ModuleId) :
    Tight (ModuleGraph.removeFrom t k id) := by
  unfold ModuleGraph.removeFrom
  split
  next => exact ht
  next s hs =>
    dsimp only
    split
    next =>
      intro k' s' h
      rw [Table.get?_erase] at h
      split at h
      · cases h
      · exact ht k' s' h
    next he =>
      intro k' s' h
      rw [Table.get?_insert] at h
      split at h
      · cases h
        simpa using he
      · exact ht k' s' h

/-- Tight tables that hold the same are equal. -/
theorem ext_holds {s t : Table κ IdSet} (hs : Tight s) (ht : Tight t)
    (h : ∀ k id, Holds s k id ↔ Holds t k id) : s = t := by
  have hsome : ∀ {a b : Table κ IdSet}, Tight a → (∀ k id, Holds a k id ↔ Holds b k id) →
      ∀ k x, a.get? k = some x → ∃ y, b.get? k = some y := by
    intro a b ha hab k x hx
    obtain ⟨id, hid⟩ := exists_of_isEmpty_eq_false (ha k x hx)
    obtain ⟨y, hy, _⟩ := (hab k id).mp ⟨x, hx, hid⟩
    exact ⟨y, hy⟩
  apply Table.ext_get?
  intro k
  cases hk : s.get? k with
  | none =>
    cases hk' : t.get? k with
    | none => rfl
    | some y =>
      obtain ⟨x, hx⟩ := hsome ht (fun k id => (h k id).symm) k y hk'
      rw [hk] at hx
      cases hx
  | some x =>
    obtain ⟨y, hy⟩ := hsome hs h k x hk
    rw [hy]
    congr 1
    apply IdSet.ext_contains
    intro id
    have := h k id
    unfold Holds at this
    rw [hk, hy] at this
    simpa using this

end

theorem holds_link (t : Table ModuleId IdSet) (m : Module) (k x : ModuleId) :
    Holds (ModuleGraph.link t m) k x ↔ (x = m.id ∧ k ∈ m.targets) ∨ Holds t k x := by
  have : ∀ (ids : List ModuleId) (t : Table ModuleId IdSet),
      Holds (ids.foldl (fun t target => ModuleGraph.addTo t target m.id) t) k x ↔
        (x = m.id ∧ k ∈ ids) ∨ Holds t k x := by
    intro ids
    induction ids with
    | nil => simp
    | cons a ids ih =>
      intro t
      rw [List.foldl_cons, ih, holds_addTo, List.mem_cons]
      tauto
  unfold ModuleGraph.link
  rw [this, Module.mem_dependencyIds]

theorem tight_link {t : Table ModuleId IdSet} (ht : Tight t) (m : Module) :
    Tight (ModuleGraph.link t m) := by
  unfold ModuleGraph.link
  induction m.dependencyIds generalizing t with
  | nil => exact ht
  | cons a ids ih => exact ih (tight_addTo ht a m.id)

theorem holds_unlink (t : Table ModuleId IdSet) (m : Module) (k x : ModuleId) :
    Holds (ModuleGraph.unlink t m) k x ↔ ¬ (x = m.id ∧ k ∈ m.targets) ∧ Holds t k x := by
  have : ∀ (ids : List ModuleId) (t : Table ModuleId IdSet),
      Holds (ids.foldl (fun t target => ModuleGraph.removeFrom t target m.id) t) k x ↔
        ¬ (x = m.id ∧ k ∈ ids) ∧ Holds t k x := by
    intro ids
    induction ids with
    | nil => simp
    | cons a ids ih =>
      intro t
      rw [List.foldl_cons, ih, holds_removeFrom, List.mem_cons]
      tauto
  unfold ModuleGraph.unlink
  rw [this, Module.mem_dependencyIds]

theorem tight_unlink {t : Table ModuleId IdSet} (ht : Tight t) (m : Module) :
    Tight (ModuleGraph.unlink t m) := by
  unfold ModuleGraph.unlink
  induction m.dependencyIds generalizing t with
  | nil => exact ht
  | cons a ids ih => exact ih (tight_removeFrom ht a m.id)

end Index

/-! ## Indexed graphs -/

namespace ModuleGraph

/-- The indexes hold what the modules say, and nothing empty. -/
structure Indexed (g : ModuleGraph) : Prop where
  importers : ∀ t id, Index.Holds g.importers t id ↔ ∃ m, g.get? id = some m ∧ t ∈ m.targets
  byPath : ∀ p id, Index.Holds g.byPath p id ↔ g.contains id = true ∧ id.path.text = p
  tightImporters : Index.Tight g.importers
  tightByPath : Index.Tight g.byPath

namespace Indexed

theorem empty : Indexed {} where
  importers t id := by
    simp only [get?_empty, reduceCtorEq, false_and, exists_false, iff_false]
    rintro ⟨s, ⟨⟩, _⟩
  byPath p id := by
    simp [Index.Holds, EmptyCollection.emptyCollection, ModuleGraph.contains, Table.contains]
  tightImporters := by rintro k s ⟨⟩
  tightByPath := by rintro k s ⟨⟩

/-- Two indexed graphs with the same modules and entries are equal. -/
theorem ext {g h : ModuleGraph} (hg : g.Indexed) (hh : h.Indexed)
    (hm : ∀ id, g.get? id = h.get? id) (he : g.entries = h.entries)
    (hee : g.entryErrors = h.entryErrors) : g = h := by
  have hmods : g.modules = h.modules := Table.ext_get? hm
  have hc : ∀ id, g.contains id = h.contains id := by
    intro id
    unfold ModuleGraph.contains
    rw [hmods]
  have hi : g.importers = h.importers := by
    apply Index.ext_holds hg.tightImporters hh.tightImporters
    intro k id
    rw [hg.importers, hh.importers, hm]
  have hp : g.byPath = h.byPath := by
    apply Index.ext_holds hg.tightByPath hh.tightByPath
    intro k id
    rw [hg.byPath, hh.byPath, hc]
  cases g; cases h
  simp only at hmods hi hp he hee
  subst hmods hi hp he hee
  rfl

variable {g : ModuleGraph}

theorem insert (hg : g.Indexed) (m : Module) : (g.insert m).Indexed := by
  have hlink : ∀ t : Table ModuleId IdSet, Index.Tight t →
      (∀ k x, Index.Holds t k x ↔ x ≠ m.id ∧ Index.Holds g.importers k x) →
      (∀ k x, Index.Holds (link t m) k x ↔ ∃ m', (g.insert m).get? x = some m' ∧ k ∈ m'.targets) ∧
        Index.Tight (link t m) := by
    intro t ht h
    refine ⟨fun k x => ?_, Index.tight_link ht m⟩
    rw [Index.holds_link, h, hg.importers, get?_insert]
    by_cases hx : x = m.id <;> simp [hx]
  have hi : (∀ k x, Index.Holds (g.insert m).importers k x ↔
      ∃ m', (g.insert m).get? x = some m' ∧ k ∈ m'.targets) ∧
      Index.Tight (g.insert m).importers := by
    unfold ModuleGraph.insert
    cases hprev : g.get? m.id with
    | none =>
      refine hlink _ hg.tightImporters fun k x => ?_
      refine ⟨fun h => ⟨?_, h⟩, And.right⟩
      rintro rfl
      obtain ⟨m', hm', _⟩ := (hg.importers k m.id).mp h
      rw [hprev] at hm'
      cases hm'
    | some prev =>
      refine hlink _ (Index.tight_unlink hg.tightImporters _) fun k x => ?_
      rw [Index.holds_unlink, hg.importers]
      refine and_congr_left fun ⟨m', hm', hk⟩ => not_congr ?_
      refine ⟨And.left, fun hx => ⟨hx, ?_⟩⟩
      subst hx
      rw [hprev] at hm'
      cases hm'
      exact hk
  refine ⟨hi.1, fun p id => ?_, hi.2, Index.tight_addTo hg.tightByPath _ _⟩
  have hc : (g.insert m).contains id = true ↔ id = m.id ∨ g.contains id = true :=
    Table.contains_insert g.modules m.id id m
  rw [hc]
  have := Index.holds_addTo g.byPath m.id.path.text p m.id id
  unfold ModuleGraph.insert
  rw [this, hg.byPath]
  constructor
  · rintro (⟨rfl, rfl⟩ | ⟨h, rfl⟩)
    · exact ⟨.inl rfl, rfl⟩
    · exact ⟨.inr h, rfl⟩
  · rintro ⟨rfl | h, rfl⟩
    · exact .inl ⟨rfl, rfl⟩
    · exact .inr ⟨h, rfl⟩

theorem remove (hg : g.Indexed) (id : ModuleId) : (g.remove id).Indexed := by
  have hget := g.get?_remove id
  unfold ModuleGraph.remove at hget ⊢
  cases hm : g.get? id with
  | none => exact hg
  | some m =>
    simp only [hm] at hget ⊢
    refine ⟨fun t x => ?_, fun p x => ?_, Index.tight_unlink hg.tightImporters _,
      Index.tight_removeFrom hg.tightByPath _ _⟩
    · rw [Index.holds_unlink, hg.importers, hget]
      by_cases hx : x = id
      · subst hx
        simp [hm, Module.targets]
      · simp [hx]
    · rw [Index.holds_removeFrom, hg.byPath, contains_iff, contains_iff, hget]
      by_cases hx : x = id
      · subst hx
        simp only [ite_true, reduceCtorEq, exists_false, false_and, iff_false]
        rintro ⟨hne, _, rfl⟩
        exact hne ⟨rfl, trivial⟩
      · simp [hx]

/-- Changes that keep ids and targets keep the indexes. -/
theorem of_same_targets {h : ModuleGraph} (hg : g.Indexed) (hi : h.importers = g.importers)
    (hp : h.byPath = g.byPath)
    (hm : ∀ id, (h.get? id).map Module.targets = (g.get? id).map Module.targets) : h.Indexed := by
  have hiff : ∀ (id : ModuleId) (q : List ModuleId → Prop),
      (∃ m, h.get? id = some m ∧ q m.targets) ↔ ∃ m, g.get? id = some m ∧ q m.targets := by
    intro id q
    have := hm id
    cases hh : h.get? id <;> cases hgg : g.get? id <;> simp_all
  refine ⟨fun t id => ?_, fun p id => ?_, hi ▸ hg.tightImporters, hp ▸ hg.tightByPath⟩
  · rw [hi, hg.importers]
    exact (hiff id fun ts => t ∈ ts).symm
  · rw [hp, hg.byPath, contains_iff, contains_iff]
    have := hiff id fun _ => True
    simp only [and_true] at this
    rw [this]

theorem setState (hg : g.Indexed) (id : ModuleId) (s : ModuleState) : (g.setState id s).Indexed := by
  refine hg.of_same_targets rfl rfl fun id' => ?_
  rw [get?_setState]
  split
  next => rw [Option.map_map]; rfl
  next => rfl

theorem settle (hg : g.Indexed) : g.settle.Indexed := by
  refine hg.of_same_targets rfl rfl fun id => ?_
  rw [get?_settle, Option.map_map]
  exact congrArg (fun f => (g.get? id).map f) (funext fun m => Module.settled_targets m)

theorem setEntry (hg : g.Indexed) (name : String) (id : ModuleId) : (g.setEntry name id).Indexed :=
  hg.of_same_targets rfl rfl fun _ => rfl

theorem setEntryError (hg : g.Indexed) (name : String) (e : BuildError) :
    (g.setEntryError name e).Indexed :=
  hg.of_same_targets rfl rfl fun _ => rfl

theorem markStale (hg : g.Indexed) (files : FileTree) (path : Path) :
    (g.markStale files path).1.Indexed := by
  unfold ModuleGraph.markStale
  dsimp only
  generalize List.filter _ _ = ids
  induction ids generalizing g with
  | nil => exact hg
  | cons a ids ih => exact ih (hg.setState a .stale)

theorem prune (hg : g.Indexed) : g.prune.1.Indexed := by
  unfold ModuleGraph.prune
  dsimp only
  generalize g.unreachable = ids
  induction ids generalizing g with
  | nil => exact hg
  | cons a ids ih => exact ih (hg.remove a)

theorem mem_idsForPath (hg : g.Indexed) {p : String} {id : ModuleId} :
    id ∈ g.idsForPath p ↔ g.contains id = true ∧ id.path.text = p := by
  rw [← hg.byPath]
  unfold idsForPath Index.Holds
  rw [IdSet.mem_ids]
  cases g.byPath.get? p with
  | none => simp [Table.contains, EmptyCollection.emptyCollection]
  | some s => simp

end Indexed

end ModuleGraph

end Bundler
