import Bundler.Chunk.Basic

/-!
# Partition into chunks

Without code splitting there is one chunk for each entry, with everything the entry leads to. With
code splitting an entry chunk follows static imports only, every target of a dynamic import gets an
async chunk, and the cache groups, in order, move modules that chunks share into chunks of their
own; a module that one group has claimed is out of reach for the next.
-/

namespace Bundler

/-- The chunks, and for each module the positions of those that hold it. -/
structure ChunkGraph where
  chunks : List Chunk := []
  positions : Table ModuleId (List Nat) := {}

namespace Partition

/-! ## Async chunks -/

/-- The name of an async chunk before others are looked at. -/
def stem (id : ModuleId) : String := id.path.stem?.getD "chunk"

/-- The `n`-th name for a base. -/
def numbered (base : String) (n : Nat) : String :=
  if n = 0 then base else base ++ "-" ++ toString n

/-- The first name for a base that is not taken. -/
def freshName (names : List String) (base : String) : String :=
  (((List.range (names.length + 1)).map (numbered base)).find? (!names.contains ·)).getD base

/-- What is known while async chunks are looked for: the names taken, the async chunk of each
target so far, and, for the chunk that is looked at, the chunks it made and its imports. -/
structure Discovery where
  names : List String
  asyncs : List (ModuleId × String)
  created : List Chunk := []
  imports : List String := []

namespace Discovery

/-- The targets that have a chunk. -/
def targets (d : Discovery) : List ModuleId := d.asyncs.map (·.1)

/-- Adds an import, once. -/
def addImport (d : Discovery) (name : String) : Discovery :=
  { d with imports := if d.imports.contains name then d.imports else d.imports ++ [name] }

/-- Notes that a chunk imports `target`, which gets a chunk if it is live and has none. -/
def note (g : ModuleGraph) (d : Discovery) (target : ModuleId) : Discovery :=
  if g.isLive target then
    match d.asyncs.find? (·.1 = target) with
    | some (_, name) => d.addImport name
    | none =>
      let name := freshName d.names (stem target)
      let chunk : Chunk :=
        { name, kind := .async, entry := some target, modules := g.collect target false }
      { d with
        names := name :: d.names
        asyncs := (target, name) :: d.asyncs
        created := d.created ++ [chunk] }.addImport name
  else d

/-- What a chunk imports dynamically. -/
def dynamicTargets (g : ModuleGraph) (c : Chunk) : List ModuleId :=
  c.modules.flatMap fun id => ((g.get? id).map Module.dynamicTargets).getD []

def ofChunk (g : ModuleGraph) (names : List String) (asyncs : List (ModuleId × String))
    (c : Chunk) : Discovery :=
  (dynamicTargets g c).foldl (note g) { names, asyncs }

/-- A chunk that is made uses up a module that had none. -/
theorem note_le (g : ModuleGraph) (d : Discovery) (t : ModuleId) :
    g.unseen (d.note g t).targets + (d.note g t).created.length ≤
      g.unseen d.targets + d.created.length := by
  unfold note
  split
  next hl =>
    split
    next => exact Nat.le_refl _
    next hn =>
      have hmem : t ∈ g.ids := by
        unfold ModuleGraph.isLive at hl
        cases hg : g.get? t with
        | none => rw [hg] at hl; cases hl
        | some m => exact ModuleGraph.mem_ids_of_get? hg
      have hnew : d.targets.contains t = false := by
        simp only [targets, List.contains_eq_mem, List.mem_map, decide_eq_false_iff_not]
        rintro ⟨x, hx, rfl⟩
        have := List.find?_eq_none.mp hn x hx
        simp at this
      have := ModuleGraph.unseen_cons_lt hmem hnew
      simp only [addImport, targets, List.map_cons, List.length_append, List.length_singleton]
      simp only [targets] at this
      omega
  next => exact Nat.le_refl _

theorem foldl_note_le (g : ModuleGraph) (ts : List ModuleId) (d : Discovery) :
    g.unseen (ts.foldl (note g) d).targets + (ts.foldl (note g) d).created.length ≤
      g.unseen d.targets + d.created.length := by
  induction ts generalizing d with
  | nil => exact Nat.le_refl _
  | cons t ts ih => exact Nat.le_trans (ih (d.note g t)) (note_le g d t)

end Discovery

/-- Looks through chunks for dynamic imports, and then through the chunks that those make. -/
def discover (g : ModuleGraph) (names : List String) (asyncs : List (ModuleId × String))
    (pending : List Chunk) : List Chunk :=
  match pending with
  | [] => []
  | c :: rest =>
    let d := Discovery.ofChunk g names asyncs c
    { c with dynamicImports := d.imports } :: discover g d.names d.asyncs (rest ++ d.created)
termination_by g.unseen (asyncs.map (·.1)) + pending.length
decreasing_by
  have := Discovery.foldl_note_le g (Discovery.dynamicTargets g c) { names, asyncs }
  simp only [Discovery.targets, List.length_nil, Nat.add_zero] at this
  simp only [Discovery.ofChunk, List.length_append, List.length_cons]
  omega

/-! ## Cache groups -/

/-- Whether a group looks at a chunk. -/
def inScope (group : CacheGroup) (c : Chunk) : Bool :=
  match c.kind with
  | .entry => true
  | .async => group.chunks = .all
  | .shared => false

/-- Whether a group's test accepts an id. A test that cannot be read accepts none. -/
def accepts (group : CacheGroup) : ModuleId → Bool :=
  match group.test with
  | none => fun _ => true
  | some test =>
    match Regex.parse test with
    | .ok r => fun id => r.isFoundIn id.text
    | .error _ => fun _ => false

/-- The modules that a group may move: those in enough chunks of its scope, not claimed, and
accepted. -/
def candidates (group : CacheGroup) (chunks : List Chunk) (claimed : List ModuleId) :
    List ModuleId :=
  let held := (chunks.filter (inScope group)).flatMap (·.modules)
  let accept := accepts group
  (Module.distinct held).filter fun id =>
    group.minChunks ≤ held.count id && !claimed.contains id && accept id

/-- The sizes of some modules together. -/
def totalSize (g : ModuleGraph) (ids : List ModuleId) : Nat :=
  (ids.filterMap g.get?).foldl (fun total m => total + m.size) 0

/-- A chunk in the scope of a group without the modules that the group takes. -/
def giveUp (name : String) (moved : List ModuleId) (c : Chunk) : Chunk :=
  let kept := c.modules.filter (!moved.contains ·)
  { c with
    modules := kept
    references :=
      if kept.length ≠ c.modules.length && !c.references.contains name then c.references ++ [name]
      else c.references }

/-- The chunk of a group with the modules that the group takes. -/
def takeUp (moved : List ModuleId) (c : Chunk) : Chunk :=
  { c with modules := c.modules ++ moved.filter (!c.modules.contains ·) }

/-- Applies a group to the chunks; the modules it takes are claimed. -/
def applyGroup (g : ModuleGraph) (state : List Chunk × List ModuleId) (group : CacheGroup) :
    List Chunk × List ModuleId :=
  let (chunks, claimed) := state
  let moved := candidates group chunks claimed
  if moved.isEmpty || totalSize g moved < group.minSize then state
  else
    let chunks :=
      if chunks.any (·.name = group.name) then chunks
      else chunks ++ [{ name := group.name, kind := .shared }]
    (chunks.map fun c =>
      if c.name = group.name then takeUp moved c
      else if inScope group c then giveUp group.name moved c
      else c, claimed ++ moved)

/-! ## The partition -/

/-- The chunk of an entry. -/
def entryChunk (g : ModuleGraph) (dynamic : Bool) (e : String × ModuleId) : Chunk :=
  { name := e.1, kind := .entry, entry := some e.2, modules := g.collect e.2 dynamic }

/-- Entry and async chunks, before any group. -/
def splitChunks (g : ModuleGraph) : List Chunk :=
  let entries := g.entries.toList.map (entryChunk g false)
  discover g (entries.map (·.name)) [] entries

def chunks (g : ModuleGraph) (o : SplitOptions) : List Chunk :=
  if o.codeSplitting then (o.cacheGroups.foldl (applyGroup g) (splitChunks g, [])).1
  else g.entries.toList.map (entryChunk g true)

end Partition

namespace ChunkGraph

/-- Adds a position for each member of a chunk. -/
def addPositions (t : Table ModuleId (List Nat)) (c : Chunk × Nat) : Table ModuleId (List Nat) :=
  c.1.modules.foldl (fun t id => t.insert id ((t.get? id).getD [] ++ [c.2])) t

def ofChunks (chunks : List Chunk) : ChunkGraph :=
  ⟨chunks, chunks.zipIdx.foldl addPositions {}⟩

def partition (g : ModuleGraph) (o : SplitOptions) : ChunkGraph := ofChunks (Partition.chunks g o)

def size (c : ChunkGraph) : Nat := c.chunks.length

def isEmpty (c : ChunkGraph) : Bool := c.chunks.isEmpty

def get? (c : ChunkGraph) (name : String) : Option Chunk := c.chunks.find? (·.name = name)

/-- The names of the chunks that hold a module. -/
def chunksFor (c : ChunkGraph) (id : ModuleId) : List String :=
  ((c.positions.get? id).getD []).filterMap fun i => c.chunks[i]?.map (·.name)

/-- The async chunk that starts from a module. -/
def asyncChunkFor (c : ChunkGraph) (id : ModuleId) : Option Chunk :=
  c.chunks.find? fun c => c.kind = .async && c.entry = some id

end ChunkGraph

end Bundler
