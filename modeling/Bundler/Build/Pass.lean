import Bundler.Build.Process

/-!
# Passes over the graph

A pass processes modules until nothing is left to do. One coordinator owns the graph: it starts
tasks for ids that need work, takes in the modules that the tasks deliver, in whatever order, and
starts tasks for what those depend on. A pass is at rest when no task is outstanding, which it tells
by a count of those that are in flight.
-/

namespace Bundler

inductive ProgressEvent
  | started (entries : Nat)
  | moduleDone (done total : Nat)
  | chunking (modules : Nat)
  | finished (modules chunks : Nat)
deriving DecidableEq

/-- What a pass changed. -/
structure Delta where
  /-- The ids that were processed, in the order of their delivery. -/
  processed : List ModuleId := []
  /-- New modules, and those whose content or dependencies changed. -/
  touched : IdSet := {}
  /-- A node or an edge came or went. -/
  topologyChanged : Bool := false
  sizeChanged : Bool := false

structure Pass where
  graph : ModuleGraph
  /-- The ids that a task was started for. -/
  visited : List ModuleId := []
  /-- The targets of dynamic imports that are compiled at once. -/
  eager : List ModuleId := []
  /-- The tasks that were not delivered yet, the one started first in front. -/
  outstanding : List ModuleId := []
  /-- How many tasks are in flight: a pass is at rest when there is none. -/
  inFlight : Int := 0
  spawned : Nat := 0
  finished : Nat := 0
  delta : Delta := {}
  events : List ProgressEvent := []

namespace Pass

/-- Notes what a module changes against the one it replaces. -/
def compare (d : Delta) (m : Module) : Option Module → Delta
  | none => { d with topologyChanged := true, touched := d.touched.add m.id }
  | some prev =>
    let dependenciesChanged := prev.dependencyIds ≠ m.dependencyIds
    let lazyChanged := prev.isLazy ≠ m.isLazy
    let touched := dependenciesChanged || lazyChanged || prev.fingerprint ≠ m.fingerprint
    { d with
      topologyChanged := d.topologyChanged || dependenciesChanged || lazyChanged
      touched := if touched then d.touched.add m.id else d.touched
      sizeChanged := d.sizeChanged || prev.size ≠ m.size }

/-- Puts a module into the graph. -/
def record (p : Pass) (m : Module) : Pass :=
  { p with delta := compare p.delta m (p.graph.get? m.id), graph := p.graph.insert m }

/-- Starts a task for an id. After a cancellation the module fails without one. -/
def spawn (p : Pass) (cancelled : Bool) (id : ModuleId) : Pass :=
  let p := { p with visited := id :: p.visited }
  if cancelled then p.record (.failed id [.load id.text "build cancelled"])
  else
    { p with
      graph := p.graph.setState id .rebuilding
      outstanding := p.outstanding ++ [id]
      inFlight := p.inFlight + 1
      spawned := p.spawned + 1 }

/-- Starts a task for an id that is not known, or is a placeholder. -/
def enqueue (p : Pass) (cancelled : Bool) (id : ModuleId) : Pass :=
  if p.visited.contains id then p
  else
    match p.graph.get? id with
    | some m => if m.isLazy then p.spawn cancelled id else p
    | none => p.spawn cancelled id

/-- Starts a task for an id even if it is in the graph. -/
def reprocess (p : Pass) (cancelled : Bool) (id : ModuleId) : Pass :=
  if p.visited.contains id then p else p.spawn cancelled id

/-- Follows a dependency of a module that was delivered. -/
def follow (p : Pass) (lazyCompilation cancelled : Bool) (d : Dependency) : Pass :=
  match d.target with
  | none => p
  | some target =>
    if d.external then
      if p.graph.contains target then p else p.record (.outside target)
    else if lazyCompilation && !d.kind.isStatic && !p.eager.contains target then
      if p.graph.contains target || p.visited.contains target then p
      else p.record (.placeholder target)
    else p.enqueue cancelled target

/-- A task has ended. -/
def takeIn (p : Pass) (id : ModuleId) : Pass :=
  let finished := p.finished + 1
  { p with
    outstanding := p.outstanding.erase id
    inFlight := p.inFlight - 1
    finished
    events := p.events ++ [ProgressEvent.moduleDone finished p.spawned] }

/-- Puts a module that was processed into the graph. -/
def accept (p : Pass) (m : Module) : Pass :=
  Pass.record { p with delta := { p.delta with processed := p.delta.processed ++ [m.id] } } m

/-- Takes in the module of a task: what it depends on is followed before it is put in. -/
def deliver (p : Pass) (lazyCompilation cancelled : Bool) (id : ModuleId) (m : Module) : Pass :=
  (m.dependencies.foldl (fun p d => p.follow lazyCompilation cancelled d) (p.takeIn id)).accept m

/-- Takes in the modules of the tasks that are done. -/
def deliverAll (p : Pass) (lazyCompilation cancelled : Bool) (tasks : List Task) : Pass :=
  (tasks.filterMap Task.module?).foldl
    (fun p m => p.deliver lazyCompilation cancelled m.id m) p

/-- The tasks behind a delivery: those that are not done, and new ones for what was started. -/
def nextTasks (p : Pass) (tasks : List Task) : List Task :=
  let waiting := tasks.filter (·.module?.isNone)
  waiting ++
    (p.outstanding.filter fun id => !waiting.any (·.id = id)).map .loading

/-- Runs tasks until the pass is at rest. Gives nothing if that takes more than `fuel` rounds. -/
def runTasks (project : Project) (w : World) : Nat → Pass → List Task → Inquiries →
    Option (Pass × Inquiries)
  | 0, p, _, s => if p.inFlight ≤ 0 then some (p, s) else none
  | fuel + 1, p, tasks, s =>
    if p.inFlight ≤ 0 then some (p, s)
    else
      let (s, tasks) := Task.round project w s tasks
      let p := p.deliverAll project.lazyCompilation s.bridge.cancelled tasks
      runTasks project w fuel p (p.nextTasks tasks) s

/-- Runs the outstanding tasks, and those that come of them, in the order in which they were
started. -/
def run (project : Project) (w : World) (fuel : Nat) (p : Pass) (s : Inquiries) :
    Option (Pass × Inquiries) :=
  runTasks project w fuel p (p.nextTasks []) s

/-- Specifiers like `src/main.js` name a file below the root rather than a package. -/
def entrySpecifier (files : FileTree) (root : Path) (specifier : String) : String :=
  let path : Path := ⟨(splitQuery specifier).1⟩
  if !Text.startsWith specifier "." && !path.isAbsolute && files.isFile (root.join path) then
    "./" ++ specifier
  else specifier

/-- Takes in a resolved entry. -/
def seed (p : Pass) (root : Path) (cancelled : Bool) (name specifier : String) (r : Resolution) :
    Pass :=
  match r.outcome with
  | .ok t =>
    if t.external then
      let e := BuildError.resolve root.text specifier "entry cannot be external"
      { p with graph := p.graph.setEntryError name e }
    else Pass.enqueue { p with graph := p.graph.setEntry name t.id } cancelled t.id
  | .error e => { p with graph := p.graph.setEntryError name e.toBuildError }

/-- Resolves entries from the root and starts tasks for those that are not in the graph. The error
is the reason of a breakdown. -/
def seedEntries (p : Pass) (project : Project) (w : World) (s : Inquiries)
    (entries : Table String String) : Inquiries × Except String Pass :=
  let root := project.resolver.root
  let entries := entries.toList.map fun e => (e.1, entrySpecifier w.files root e.2)
  let (s, resolved) := project.resolver.resolveTogether w (·.2) none root entries s
  let cancelled := s.bridge.cancelled
  (s, resolved.map (·.foldl (fun p (e, r) => p.seed root cancelled e.1 e.2 r) p))

end Pass

end Bundler
