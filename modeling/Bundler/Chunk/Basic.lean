import Bundler.Graph.Basic
import Bundler.Options.Basic

/-!
# Chunks

A chunk is a group of modules that are written to one file. Its members are those that its entry
leads to, in depth-first order; modules outside the bundle and placeholders are never members.
-/

namespace Bundler

inductive ChunkKind
  | entry
  | async
  | shared
deriving DecidableEq

def ChunkKind.name : ChunkKind → String
  | .entry => "entry"
  | .async => "async"
  | .shared => "shared"

structure Chunk where
  name : String
  kind : ChunkKind
  /-- The module that an entry or async chunk starts from. -/
  entry : Option ModuleId := none
  modules : List ModuleId := []
  /-- The shared chunks that have to be loaded before this one. -/
  references : List String := []
  /-- The async chunks that its modules import. -/
  dynamicImports : List String := []
deriving DecidableEq

/-- What decides how modules are grouped. -/
structure SplitOptions where
  codeSplitting : Bool := false
  cacheGroups : List CacheGroup := []
deriving DecidableEq

def Options.splitOptions (o : Options) : SplitOptions := ⟨o.codeSplitting, o.groups⟩

namespace ModuleGraph

/-- Whether an id is that of a module that can be a member of a chunk. -/
def isLive (g : ModuleGraph) (id : ModuleId) : Bool := (g.get? id).any (·.isLive)

/-- The targets that a chunk follows from a module. -/
def followed (dynamic : Bool) (m : Module) : List ModuleId :=
  if dynamic then m.targets else m.staticTargets

/-- The live modules on paths from `stack`, in depth-first preorder, without those in `seen`. -/
def collectFrom (g : ModuleGraph) (dynamic : Bool) (stack seen : List ModuleId) : List ModuleId :=
  match stack with
  | [] => []
  | id :: rest =>
    if _seen : seen.contains id = true then collectFrom g dynamic rest seen
    else
      match _found : g.get? id with
      | some m =>
        if m.isLive then
          id :: collectFrom g dynamic
            ((followed dynamic m).filter (!(id :: seen).contains ·) ++ rest) (id :: seen)
        else collectFrom g dynamic rest (id :: seen)
      | none => collectFrom g dynamic rest (id :: seen)
termination_by (g.unseen seen, stack.length)
decreasing_by
  · exact Prod.Lex.right _ (by simp)
  · exact Prod.Lex.left _ _ (unseen_cons_lt (mem_ids_of_get? _found) (by simpa using _seen))
  · exact Prod.Lex.left _ _ (unseen_cons_lt (mem_ids_of_get? _found) (by simpa using _seen))
  · have := unseen_cons_le g id seen
    rcases Nat.lt_or_eq_of_le this with h | h
    · exact Prod.Lex.left _ _ h
    · rw [h]; exact Prod.Lex.right _ (by simp)

/-- The live modules that `start` leads to. -/
def collect (g : ModuleGraph) (start : ModuleId) (dynamic : Bool) : List ModuleId :=
  g.collectFrom dynamic [start] []

end ModuleGraph

end Bundler
