import Bundler.Graph.Basic
import Bundler.Load

/-!
# Processing a module

A module is loaded, transformed, searched for dependencies, and the dependencies are resolved.
Processing does not fail: what goes wrong is attached to the module. If the host breaks down, so does
the task of the module that asked, and of that module nothing but the breakdown is told.

Modules that are processed at the same time go in step: all are loaded, and then the dependencies
of all are resolved. One that waits for a silent host lets the others pass; it goes on when the
session is cancelled, or after the time limit, which is longer than anything that the others do.
-/

namespace Bundler

/-- What every module of a project is processed with. -/
structure Project where
  resolver : Resolver
  loading : Loading
  lazyCompilation : Bool := false

/-- A module that was loaded and searched, and how far its mentions are resolved. -/
structure Draft where
  id : ModuleId
  loaded : Loaded
  transformed : Transformed
  mentions : List (Mention × Option Resolution)
  /-- What went wrong before. -/
  errors : List BuildError

namespace Project

/-- The project of some options; `root` is absolute. -/
def ofOptions (o : Options) (root : Path) (transforms : Loader → Transform) : Project :=
  { resolver := .ofOptions o root
    loading :=
      { loaders := o.loaders, transforms, options := ⟨o.inlineStyle, o.svgr⟩ }
    lazyCompilation := o.lazyCompilation }

/-- A dependency that was resolved, and the errors that came with it. -/
def dependency (m : Mention) (r : Resolution) : Dependency × List BuildError :=
  match r.outcome with
  | .ok t => (⟨m.specifier, m.kind, m.line, some t.id, t.external⟩, r.hookError.toList)
  | .error e =>
    (⟨m.specifier, m.kind, m.line, none, false⟩, r.hookError.toList ++ [e.toBuildError])

/-- The module of a transformed source whose dependencies are known. -/
def assemble (id : ModuleId) (l : Loaded) (t : Transformed)
    (dependencies : List (Dependency × List BuildError)) (errors : List BuildError) : Module :=
  let errors := errors ++ dependencies.flatMap (·.2)
  { id
    loader := some l.loader
    fingerprint := some (.ofBytes l.content)
    code := t.code
    css := t.css
    size := Text.byteLength t.code + (t.css.map Text.byteLength).getD 0
    dependencies := dependencies.map (·.1)
    errors
    state := if errors.isEmpty then .fresh else .errored }

/-- The draft of a module of which the load came to `r`. The error is the module that failed. -/
def search (p : Project) (id : ModuleId) (r : LoadResult) : Except Module Draft :=
  let errors := r.hookError.toList
  match r.result with
  | .error e => .error (.failed id (errors ++ [e]))
  | .ok l =>
    match p.loading.transform id l with
    | .error e =>
      .error { Module.failed id (errors ++ [e]) with
        loader := some l.loader, fingerprint := some (.ofBytes l.content) }
    | .ok t =>
      match t.dependencies id l.loader with
      | .ok found => .ok ⟨id, l, t, found.map (·, none), errors⟩
      | .error e => .ok ⟨id, l, t, [], errors ++ [e]⟩

/-- The node of a module whose processing broke down. -/
def broken (id : ModuleId) (reason : String) : Module :=
  .failed id [.load id.text ("internal error: " ++ reason)]

end Project

namespace Draft

/-- The mentions that are not resolved yet. -/
def openMentions (d : Draft) : List Mention :=
  d.mentions.filterMap fun x => if x.2.isNone then some x.1 else none

/-- The module of a draft, with the mentions that were resolved. -/
def toModule (d : Draft) : Module :=
  Project.assemble d.id d.loaded d.transformed
    (d.mentions.filterMap fun x => x.2.map (Project.dependency x.1)) d.errors

end Draft

/-! ## Tasks -/

/-- A module on its way through the processing. -/
inductive Task
  /-- The content is asked for. -/
  | loading (id : ModuleId)
  /-- It is asked where the mentions lead. -/
  | resolving (d : Draft)
  | done (m : Module)

namespace Task

def id : Task → ModuleId
  | .loading id => id
  | .resolving d => d.id
  | .done m => m.id

def module? : Task → Option Module
  | .done m => some m
  | _ => none

/-- Whether a task cannot go on before a time limit passes. -/
def isStalled (p : Project) (w : World) (b : Bridge) : Task → Bool
  | .loading id => b.isStalled w.host (.load id.text)
  | .resolving d =>
    !d.openMentions.isEmpty &&
      d.openMentions.all fun m => p.resolver.isStalled w b m.specifier (some d.id)
  | .done _ => false

/-- The next step of a task. With `late`, the limits of its open questions have passed. -/
def step (p : Project) (w : World) (late : Bool) (s : Inquiries) : Task → Inquiries × Task
  | .loading id =>
    match p.loading.load w s.bridge id with
    | (bridge, .error reason) => ({ s with bridge }, .done (Project.broken id reason))
    | (bridge, .ok r) =>
      match p.search id r with
      | .error m => ({ s with bridge }, .done m)
      | .ok d => ({ s with bridge }, .resolving d)
  | .resolving d =>
    match p.resolver.resolveOpen w (·.specifier) (some d.id) d.id.dir late d.mentions s with
    | (s, .error reason) => (s, .done (Project.broken d.id reason))
    | (s, .ok mentions) =>
      let d := { d with mentions }
      (s, if d.openMentions.isEmpty then .done d.toModule else .resolving d)
  | .done m => (s, .done m)

/-- Lets tasks take a step, one after the other, except for those that are held back. -/
def stepAll (p : Project) (w : World) (late : Bool) (s : Inquiries) :
    List (Task × Bool) → Inquiries × List Task
  | [] => (s, [])
  | (t, held) :: rest =>
    let (s, t) := if held then (s, t) else t.step p w late s
    let (s, rest) := stepAll p w late s rest
    (s, t :: rest)

/-- A round: every task takes a step that can. If none can, time passes until all can. -/
def round (p : Project) (w : World) (s : Inquiries) (tasks : List Task) :
    Inquiries × List Task :=
  let late := tasks.all (·.isStalled p w s.bridge)
  stepAll p w late s (tasks.map fun t => (t, !late && t.isStalled p w s.bridge))

end Task

end Bundler
