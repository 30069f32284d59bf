import Bundler.Graph.Module

/-!
# The module graph

The modules by id, with two indexes that every operation keeps: the importers of each id, and the
ids that share a path. Entries and the errors of entries stand beside them, by name.
-/

namespace Bundler

structure ModuleGraph where
  modules : Table ModuleId Module := {}
  /-- The ids of the modules that import an id. -/
  importers : Table ModuleId IdSet := {}
  /-- The ids with a path. -/
  byPath : Table String IdSet := {}
  entries : Table String ModuleId := {}
  entryErrors : Table String BuildError := {}

namespace ModuleGraph

def size (g : ModuleGraph) : Nat := g.modules.size

def isEmpty (g : ModuleGraph) : Bool := g.modules.isEmpty

def get? (g : ModuleGraph) (id : ModuleId) : Option Module := g.modules.get? id

def contains (g : ModuleGraph) (id : ModuleId) : Bool := g.modules.contains id

/-- The ids of all modules, in order. -/
def ids (g : ModuleGraph) : List ModuleId := g.modules.keys

/-- Changes the state of a module. -/
def setState (g : ModuleGraph) (id : ModuleId) (s : ModuleState) : ModuleGraph :=
  { g with modules := g.modules.modify id fun m => { m with state := s } }

def setEntry (g : ModuleGraph) (name : String) (id : ModuleId) : ModuleGraph :=
  { g with entryErrors := g.entryErrors.erase name, entries := g.entries.insert name id }

def setEntryError (g : ModuleGraph) (name : String) (e : BuildError) : ModuleGraph :=
  { g with entries := g.entries.erase name, entryErrors := g.entryErrors.insert name e }

/-- The importers of an id, in order. -/
def importersOf (g : ModuleGraph) (id : ModuleId) : List ModuleId :=
  ((g.importers.get? id).getD {}).ids

/-- The ids with a path, in order. -/
def idsForPath (g : ModuleGraph) (path : String) : List ModuleId :=
  ((g.byPath.get? path).getD {}).ids

/-- Adds an id to the set of a key. -/
def addTo {κ : Type} [Ord κ] [Std.TransOrd κ] [Std.LawfulEqOrd κ] (t : Table κ IdSet) (k : κ)
    (id : ModuleId) : Table κ IdSet :=
  t.insert k (((t.get? k).getD {}).add id)

/-- Takes an id out of the set of a key; an empty set goes. -/
def removeFrom {κ : Type} [Ord κ] [Std.TransOrd κ] [Std.LawfulEqOrd κ] (t : Table κ IdSet) (k : κ)
    (id : ModuleId) : Table κ IdSet :=
  match t.get? k with
  | none => t
  | some s =>
    let s := s.erase id
    if s.isEmpty then t.erase k else t.insert k s

/-- Forgets that a module imports what it depends on. -/
def unlink (importers : Table ModuleId IdSet) (m : Module) : Table ModuleId IdSet :=
  m.dependencyIds.foldl (fun t target => removeFrom t target m.id) importers

def link (importers : Table ModuleId IdSet) (m : Module) : Table ModuleId IdSet :=
  m.dependencyIds.foldl (fun t target => addTo t target m.id) importers

/-- Puts a module in, over the one that has its id. -/
def insert (g : ModuleGraph) (m : Module) : ModuleGraph :=
  let importers := match g.get? m.id with
    | some prev => unlink g.importers { prev with id := m.id }
    | none => g.importers
  { g with
    modules := g.modules.insert m.id m
    importers := link importers m
    byPath := addTo g.byPath m.id.path.text m.id }

/-- Takes a module out, with the edges that leave it. -/
def remove (g : ModuleGraph) (id : ModuleId) : ModuleGraph :=
  match g.get? id with
  | none => g
  | some m =>
    { g with
      modules := g.modules.erase id
      importers := unlink g.importers { m with id := id }
      byPath := removeFrom g.byPath id.path.text id }

/-- How many modules `seen` does not name. -/
def unseen (g : ModuleGraph) (seen : List ModuleId) : Nat :=
  (g.ids.filter (!seen.contains ·)).length

/-- Naming one more id leaves no more unseen. -/
theorem unseen_cons_le (g : ModuleGraph) (id : ModuleId) (seen : List ModuleId) :
    g.unseen (id :: seen) ≤ g.unseen seen := by
  unfold unseen
  rw [← List.countP_eq_length_filter, ← List.countP_eq_length_filter]
  apply List.countP_mono_left
  intro x _ h
  simp only [List.contains_cons, Bool.not_or, Bool.and_eq_true] at h
  exact h.2

theorem mem_ids_of_get? {g : ModuleGraph} {id : ModuleId} {m : Module} (h : g.get? id = some m) :
    id ∈ g.ids := by
  have := (Table.get?_eq_some_iff g.modules).mp h
  exact List.mem_map.mpr ⟨(id, m), this, rfl⟩

/-- Naming an id of the graph that was not named leaves fewer unseen. -/
theorem unseen_cons_lt {g : ModuleGraph} {id : ModuleId} {seen : List ModuleId}
    (hid : id ∈ g.ids) (hseen : seen.contains id = false) :
    g.unseen (id :: seen) < g.unseen seen := by
  unfold unseen
  have key : ∀ l : List ModuleId, id ∈ l →
      (l.filter (!(id :: seen).contains ·)).length < (l.filter (!seen.contains ·)).length := by
    intro l
    induction l with
    | nil => simp
    | cons x xs ih =>
      intro hx
      have hle : (xs.filter (!(id :: seen).contains ·)).length ≤
          (xs.filter (!seen.contains ·)).length := by
        rw [← List.countP_eq_length_filter, ← List.countP_eq_length_filter]
        apply List.countP_mono_left
        intro y _ h
        simp only [List.contains_cons, Bool.not_or, Bool.and_eq_true] at h
        exact h.2
      by_cases hxe : x = id
      · subst hxe
        simp only [List.filter_cons, hseen, Bool.not_false, if_true, List.length_cons,
          List.contains_cons, beq_self_eq_true, Bool.true_or, Bool.not_true]
        simp only [List.contains_cons] at hle
        simpa using Nat.lt_succ_of_le hle
      · have hmem : id ∈ xs := by
          rcases List.mem_cons.mp hx with h | h
          · exact absurd h.symm hxe
          · exact h
        have := ih hmem
        by_cases hs : x ∈ seen
        · simpa [hxe, hs] using this
        · simpa [hxe, hs] using this
  exact key g.ids hid

/-- The ids on paths from `stack` that `seen` does not name, behind those that it names. -/
def reachFrom (g : ModuleGraph) (stack seen : List ModuleId) : List ModuleId :=
  match stack with
  | [] => seen
  | id :: rest =>
    if _seen : seen.contains id = true then reachFrom g rest seen
    else
      match _found : g.get? id with
      | some m => reachFrom g (m.targets.filter (!(id :: seen).contains ·) ++ rest) (id :: seen)
      | none => reachFrom g rest (id :: seen)
termination_by (g.unseen seen, stack.length)
decreasing_by
  · exact Prod.Lex.right _ (by simp)
  · exact Prod.Lex.left _ _ (unseen_cons_lt (mem_ids_of_get? _found) (by simpa using _seen))
  · have := unseen_cons_le g id seen
    rcases Nat.lt_or_eq_of_le this with h | h
    · exact Prod.Lex.left _ _ h
    · rw [h]; exact Prod.Lex.right _ (by simp)

/-- The ids that the entries lead to, along edges of every kind. -/
def reachable (g : ModuleGraph) : IdSet := IdSet.ofList (g.reachFrom g.entries.values [])

/-- The modules that no entry leads to, in order. -/
def unreachable (g : ModuleGraph) : List ModuleId :=
  let marked := g.reachable
  g.ids.filter (!marked.contains ·)

/-- Removes the modules that no entry leads to. -/
def prune (g : ModuleGraph) : ModuleGraph × List ModuleId :=
  let dead := g.unreachable
  (dead.foldl remove g, dead)

/-- The edges whose target is missing, in order. -/
def danglingEdges (g : ModuleGraph) : List (ModuleId × ModuleId) :=
  let edges := g.modules.toList.flatMap fun e =>
    (e.2.targets.filter (!g.contains ·)).map fun t => (e.1, t)
  edges.mergeSort fun a b => a.1.text < b.1.text || (a.1.text = b.1.text && a.2.text ≤ b.2.text)

/-- Brings every module to rest. -/
def settle (g : ModuleGraph) : ModuleGraph :=
  { g with modules := g.modules.mapValues fun _ m => m.settled }

/-- Marks what a change of a file affects, and tells what was marked, in order: the modules of that
file and those with a request that found nothing. Placeholders and modules outside are left
alone. -/
def markStale (g : ModuleGraph) (files : FileTree) (path : Path) : ModuleGraph × List ModuleId :=
  let canonical := ((files.canonical path).toOption).getD path
  let ofFile := g.idsForPath canonical.text ++
    (if canonical.same path then [] else g.idsForPath path.text)
  let unresolved := (g.modules.toList.filter (·.2.hasResolveError)).map (·.1)
  let affected := (IdSet.ofList (ofFile ++ unresolved)).ids
  let stale := affected.filter fun id => (g.get? id).any (·.isLive)
  (stale.foldl (fun g id => g.setState id .stale) g, stale)

end ModuleGraph

end Bundler
