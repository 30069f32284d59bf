import Bundler.Build.Pass
import Bundler.Render.Chunk

/-!
# Chunks across passes

After a pass the chunks are formed anew only if the pass could have moved a module, and a chunk is
rendered anew only if it changed or one of its members was touched.
-/

namespace Bundler

/-- Chunks, and the files that were rendered from them. -/
structure Bundle where
  chunks : ChunkGraph := {}
  rendered : List RenderedChunk := []

/-- What the last build or rebuild did. -/
structure RebuildStats where
  /-- What the change marked. -/
  stale : List ModuleId := []
  /-- How many modules were processed. -/
  processed : Nat := 0
  touched : List ModuleId := []
  pruned : List ModuleId := []
  /-- The chunks were formed anew. -/
  repartitioned : Bool := false
  /-- The chunks that were rendered anew. -/
  rerendered : List String := []
deriving DecidableEq

namespace Bundle

/-- A pass cannot have moved a module if no edge, node or size changed. -/
def mustRepartition (b : Bundle) (d : Delta) : Bool :=
  d.topologyChanged || d.sizeChanged || b.chunks.isEmpty

def nextChunks (b : Bundle) (g : ModuleGraph) (split : SplitOptions) (d : Delta) : ChunkGraph :=
  if b.mustRepartition d then .partition g split else b.chunks

/-- The earlier rendering of a chunk that is as it was and has no touched member. -/
def kept? (b : Bundle) (touched : IdSet) (c : Chunk) : Option RenderedChunk :=
  if b.chunks.get? c.name = some c && !c.modules.any (touched.contains ·) then
    b.rendered.find? (·.name = c.name)
  else none

/-- The chunks that no earlier rendering fits. -/
def outdated (b : Bundle) (touched : IdSet) (chunks : ChunkGraph) : List Chunk :=
  chunks.chunks.filter fun c => (b.kept? touched c).isNone

def renderAll (b : Bundle) (r : Renderer) (g : ModuleGraph) (touched : IdSet)
    (chunks : ChunkGraph) : List RenderedChunk :=
  chunks.chunks.map fun c => (b.kept? touched c).getD (r.renderChunk g chunks c)

/-- Chunks and files after a pass. -/
def update (b : Bundle) (g : ModuleGraph) (split : SplitOptions) (r : Renderer) (d : Delta) :
    Bundle :=
  let chunks := b.nextChunks g split d
  ⟨chunks, b.renderAll r g d.touched chunks⟩

/-- What a pass did, as seen from the chunks before it. -/
def stats (b : Bundle) (g : ModuleGraph) (split : SplitOptions) (d : Delta)
    (stale pruned : List ModuleId) : RebuildStats :=
  { stale, pruned
    processed := d.processed.length
    touched := d.touched.ids
    repartitioned := b.mustRepartition d
    rerendered := (b.outdated d.touched (b.nextChunks g split d)).map (·.name) }

end Bundle

end Bundler
