import Bundler.Build.Rebuild
import Bundler.Manifest

/-!
# Sessions

A session keeps the graph of a project, its chunks and the last result from one build to the next.
A build starts from the entries; a rebuild processes what a change of a file affects; a request for
the target of a dynamic import compiles it. All of them end in the same way: what no entry needs
goes, chunks and files follow the graph, and the result is published. An operation whose entries meet
a breakdown of the host breaks down itself: it returns nothing, and no pass is run.
-/

namespace Bundler

structure Session where
  options : Options
  /-- The directory of the project, as it is really called. -/
  root : Path
  project : Project
  renderer : Renderer
  inquiries : Inquiries := {}
  graph : ModuleGraph := {}
  bundle : Bundle := {}
  /-- The targets of dynamic imports that were compiled on request. -/
  compiled : IdSet := {}
  /-- How often a result was formed. -/
  generation : Nat := 0
  built : Bool := false
  stats : RebuildStats := {}
  /-- The result that was published last. -/
  last : BuildResult := {}

/-- What an operation came to: the session and the files after it, and what it answers. -/
structure Report where
  session : Session
  files : FileTree
  outcome : Except Error BuildResult
  /-- Nothing was affected, and the answer is the result published before. -/
  unaffected : Bool := false
  events : List ProgressEvent := []

namespace Session

/-- A session for options that are valid and a root that exists. -/
def create (o : Options) (files : FileTree) (transforms : Loader → Transform)
    (minifier : Minifier) : Except Error Session := do
  o.validate
  let root := if o.root.isAbsolute then o.root else (Path.ofNames files.start).join o.root
  match files.canonical root with
  | .error cause => throw (.io root cause)
  | .ok root =>
    return {
      options := o
      root
      project := .ofOptions o root transforms
      renderer := ⟨o.renderOptions root, minifier⟩
      inquiries := { bridge := { limit := o.hookTimeoutMs } } }

def cancelled (s : Session) : Bool := s.inquiries.bridge.cancelled

/-- Ends the questions that are open; later operations are refused. -/
def cancel (s : Session) : Session :=
  { s with inquiries := { s.inquiries with bridge := s.inquiries.bridge.cancel } }

/-- A path as it is seen from the root. -/
def absolute (s : Session) (path : Path) : Path :=
  if path.isAbsolute then path else s.root.join path

/-- Resolves a specifier as if it were written in a file of a directory. The error is the reason of
a breakdown. -/
def resolve (s : Session) (w : World) (specifier : String) (dir : Path) :
    Session × Except String Resolution :=
  let (inquiries, r) := s.project.resolver.resolve w s.inquiries specifier none (s.absolute dir)
  ({ s with inquiries }, r)

/-- Lookups from before a build are not used in it. -/
def forgetLookups (s : Session) : Session :=
  { s with inquiries := { s.inquiries with cache := {} } }

/-- The events of a session that reports its progress. -/
def told (s : Session) (events : List ProgressEvent) : List ProgressEvent :=
  if s.options.progress then events else []

/-- A report of an operation that did nothing. -/
def report (s : Session) (files : FileTree) (outcome : Except Error BuildResult) : Report :=
  { session := s, files, outcome }

/-- Writes the files of a result, if they have a place. -/
def write (s : Session) (files : FileTree) (r : BuildResult) : FileTree × Except Error Unit :=
  match s.options.outdir with
  | some dir => r.writeOutputs (s.absolute dir) files
  | none => (files, .ok ())

/-- The answer that a result gives rise to. -/
def answer (s : Session) (r : BuildResult) : Except Error BuildResult :=
  if s.options.strict && !r.success then .error (.buildFailed r.errors) else .ok r

/-- Takes in the graph of a pass, forms chunks, renders and publishes. -/
def finish (s : Session) (files : FileTree) (p : Pass) (stale : List ModuleId)
    (started : List ProgressEvent) : Report :=
  let (graph, pruned) := p.graph.prune
  let graph := graph.settle
  let d := { p.delta with topologyChanged := p.delta.topologyChanged || !pruned.isEmpty }
  let split := s.options.splitOptions
  let stats := s.bundle.stats graph split d stale pruned
  let bundle := s.bundle.update graph split s.renderer d
  let result := BuildResult.assemble graph bundle.chunks bundle.rendered
  let events := started ++ p.events ++ [.chunking graph.size]
  let s := { s with
    graph, bundle
    compiled := s.compiled.filter fun id _ => graph.contains id
    generation := s.generation + 1 }
  match s.write files result with
  | (files, .error e) => { s.report files (.error e) with events := s.told events }
  | (files, .ok ()) =>
    let s := { s with stats, last := result }
    { s.report files (s.answer result) with
      events := s.told (events ++ [.finished graph.size bundle.chunks.size]) }

/-- The pass that an operation starts with. -/
def newPass (s : Session) (graph : ModuleGraph) : Pass := { graph, eager := s.compiled.ids }

/-- Runs a pass to its end and finishes the operation. -/
def complete (s : Session) (w : World) (fuel : Nat) (p : Pass) (stale : List ModuleId)
    (started : List ProgressEvent) : Option Report := do
  let (p, inquiries) ← p.run s.project w fuel s.inquiries
  return { s with inquiries }.finish w.files p stale started

/-- Seeds a pass with entries. The error is the reason of a breakdown, which leaves nothing but the
questions that were asked. -/
def seed (s : Session) (w : World) (p : Pass) (entries : Table String String) :
    Session × Except String Pass :=
  let (inquiries, p) := p.seedEntries s.project w s.inquiries entries
  ({ s with inquiries }, p)

/-- The beginning of a full build, which keeps nothing but what was compiled on request. -/
def beginBuild (s : Session) (w : World) : Session × Except String Pass :=
  s.forgetLookups.seed w (s.newPass {}) s.options.entries

/-- Builds from the entries. -/
def fullBuild (s : Session) (w : World) (fuel : Nat) : Option Report :=
  match s.beginBuild w with
  | (_, .error _) => none
  | (s, .ok p) =>
    { s with bundle := {}, built := true }.complete w fuel p [] [.started s.options.entries.size]

/-- The entries that could not be resolved. -/
def failedEntries (s : Session) : Table String String :=
  s.options.entries.filter fun name _ => s.graph.entryErrors.contains name

/-- Marks what a change affects. -/
def mark (s : Session) (w : World) (changed : Path) : Session × List ModuleId :=
  let (graph, stale) := s.graph.markStale w.files changed
  ({ s.forgetLookups with graph }, stale)

/-- The beginning of a rebuild, which resolves once more the entries that failed. -/
def retry (s : Session) (w : World) : Session × Except String Pass :=
  s.seed w (s.newPass s.graph) s.failedEntries

/-- Processes what a change affects, and entries that could not be resolved. -/
def incrementalBuild (s : Session) (w : World) (changed : Path) (fuel : Nat) : Option Report :=
  let (marked, stale) := s.mark w changed
  if stale.isEmpty && marked.failedEntries.isEmpty then
    some { marked.report w.files (.ok s.last) with unaffected := true }
  else
    match marked.retry w with
    | (_, .error _) => none
    | (s, .ok p) =>
      let p := stale.foldl (fun p id => p.reprocess s.cancelled id) p
      s.complete w fuel p stale [.started s.failedEntries.size]

/-- A full build. Like the other operations it gives nothing if it breaks down, or if its pass is
not at rest after `fuel` rounds. -/
def build (s : Session) (w : World) (fuel : Nat) : Option Report :=
  if s.cancelled then some (s.report w.files (.error .cancelled)) else s.fullBuild w fuel

/-- A build after a file was changed, made or removed. -/
def rebuild (s : Session) (w : World) (changed : Path) (fuel : Nat) : Option Report :=
  if s.cancelled then some (s.report w.files (.error .cancelled))
  else if s.built then s.incrementalBuild w (s.absolute changed) fuel
  else s.fullBuild w fuel

/-- Compiles the target of a dynamic import. -/
def compileLazy (s : Session) (w : World) (id : ModuleId) (fuel : Nat) : Option Report :=
  if s.cancelled then some (s.report w.files (.error .cancelled))
  else if (s.graph.get? id).any (·.isLazy) then
    let s := { s with compiled := s.compiled.add id }
    s.complete w fuel ((s.newPass s.graph).reprocess s.cancelled id) [] []
  else
    let e := Error.other ("'" ++ id.text ++ "' is not awaiting lazy compilation")
    some (s.report w.files (.error e))

end Session

end Bundler
