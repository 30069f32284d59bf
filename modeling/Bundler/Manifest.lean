import Bundler.FileTree.Replace
import Bundler.Json.Printer
import Bundler.Render.Chunk

/-!
# Build results

The result of a build: what was bundled, into which chunks and files, and what went wrong. It is
read off the graph, the chunks and their files, and holds no times, so equal graphs give equal
results.
-/

namespace Bundler

structure ModuleInfo where
  id : ModuleId
  loader : Option Loader
  size : Nat
  fingerprint : Option Fingerprint
  dependencies : List ModuleId
  external : Bool
  state : ModuleState
  errors : List Diagnostic
deriving DecidableEq

structure ChunkInfo where
  name : String
  kind : ChunkKind
  entry : Option ModuleId
  modules : List ModuleId
  references : List String
  dynamicImports : List String
  /-- The names of its files, the script first. -/
  files : List String
  hash : String
deriving DecidableEq

structure BuildResult where
  /-- Neither an entry nor a module has an error. -/
  success : Bool := false
  entries : Table String ModuleId := {}
  chunks : List ChunkInfo := []
  /-- In the order of their ids. -/
  modules : List ModuleInfo := []
  errors : List Diagnostic := []
  outputs : List OutputFile := []
deriving DecidableEq

namespace BuildResult

def moduleInfo (e : ModuleId × Module) : ModuleInfo :=
  let m := e.2
  { id := e.1, loader := m.loader, size := m.size, fingerprint := m.fingerprint,
    dependencies := m.dependencyIds, external := m.external, state := m.state,
    errors := m.errors.map (·.diagnostic (some e.1.text)) }

def chunkInfo (rendered : List RenderedChunk) (c : Chunk) : ChunkInfo :=
  let r := rendered.find? (·.name = c.name)
  { name := c.name, kind := c.kind, entry := c.entry, modules := c.modules,
    references := c.references, dynamicImports := c.dynamicImports,
    files := (r.map fun r => r.files.map (·.fileName)).getD [],
    hash := (r.map (·.hash)).getD "" }

/-- The result of a graph, its chunks and their files. Errors of entries come first. -/
def assemble (g : ModuleGraph) (chunks : ChunkGraph) (rendered : List RenderedChunk) :
    BuildResult :=
  let modules := g.modules.toList.map moduleInfo
  let errors := g.entryErrors.values.map (·.diagnostic none) ++ modules.flatMap (·.errors)
  { success := errors.isEmpty, entries := g.entries,
    chunks := chunks.chunks.map (chunkInfo rendered), modules, errors,
    outputs := rendered.flatMap (·.files) }

def chunk? (r : BuildResult) (name : String) : Option ChunkInfo := r.chunks.find? (·.name = name)

/-- Looks a key up among values that stand in the order of their keys, by halving. -/
def bisect {α : Type} (key : α → String) (k : String) (l : List α) : Option α :=
  match _h : l.drop (l.length / 2) with
  | [] => none
  | a :: after =>
    match compare (key a) k with
    | .lt => bisect key k after
    | .eq => some a
    | .gt => bisect key k (l.take (l.length / 2))
termination_by l.length
decreasing_by
  all_goals
    have hlen := congrArg List.length _h
    simp only [List.length_drop, List.length_cons, List.length_take] at hlen ⊢
    omega

def module? (r : BuildResult) (id : String) : Option ModuleInfo :=
  bisect (·.id.text) id r.modules

/-- The first module whose id ends in a certain way. -/
def moduleEndingWith? (r : BuildResult) (ending : String) : Option ModuleInfo :=
  r.modules.find? fun m => Text.endsWith m.id.text ending

def output? (r : BuildResult) (fileName : String) : Option OutputFile :=
  r.outputs.find? (·.fileName = fileName)

/-! ## Writing -/

/-- A field that is left out when there is nothing to tell. -/
def optionalField (name : String) (v : Option Json) : List (String × Json) :=
  (v.map fun v => (name, v)).toList

def idList (ids : List ModuleId) : Json := .texts (ids.map (·.text))

def diagnosticJson (d : Diagnostic) : Json :=
  .object ([("code", .text d.code), ("message", .text d.message)] ++
    optionalField "module" (d.module.map .text))

def moduleJson (m : ModuleInfo) : Json :=
  .object ([("id", .text m.id.text)] ++
    optionalField "loader" (m.loader.map fun l => .text l.name) ++
    [("size", .nat m.size)] ++
    optionalField "fingerprint" (m.fingerprint.map fun f => .text f.toHex) ++
    [("dependencies", idList m.dependencies), ("external", .bool m.external),
     ("state", .text m.state.name)] ++
    (if m.errors.isEmpty then [] else [("errors", .list (m.errors.map diagnosticJson))]))

def chunkJson (c : ChunkInfo) : Json :=
  .object ([("name", .text c.name), ("kind", .text c.kind.name)] ++
    optionalField "entry" (c.entry.map fun id => .text id.text) ++
    [("modules", idList c.modules), ("references", .texts c.references),
     ("dynamicImports", .texts c.dynamicImports), ("files", .texts c.files),
     ("hash", .text c.hash)])

def toJson (r : BuildResult) : Json :=
  .object
    [("success", .bool r.success),
     ("entries", .object (r.entries.toList.map fun e => (e.1, .text e.2.text))),
     ("chunks", .list (r.chunks.map chunkJson)),
     ("modules", .list (r.modules.map moduleJson)),
     ("errors", .list (r.errors.map diagnosticJson))]

/-- Goes on after a file was written; otherwise tells why it was not. -/
def afterWrite (path : Path) (next : FileTree → FileTree × Except Error Unit) :
    FileTree × Except OsError Unit → FileTree × Except Error Unit
  | (t, .ok ()) => next t
  | (t, .error e) => (t, .error (.io path e))

/-- Writes output files under a directory, up to the first that cannot be written. -/
def writeFiles (dir : Path) : List OutputFile → FileTree → FileTree × Except Error Unit
  | [], t => (t, .ok ())
  | f :: rest, t =>
    let path := dir.join ⟨f.fileName⟩
    afterWrite path (writeFiles dir rest) (t.replace path (Text.Utf8.encode f.content) "1-0")

/-- Writes the output files under a directory. -/
def writeOutputs (r : BuildResult) (dir : Path) (t : FileTree) : FileTree × Except Error Unit :=
  writeFiles dir r.outputs t

end BuildResult

end Bundler
