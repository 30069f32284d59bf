import Bundler.Digest
import Bundler.Error
import Bundler.Loader
import Bundler.ModuleId
import Bundler.Source.Dependency

/-!
# Modules

A node of the module graph: what a file was turned into, what it asks for, and what went wrong.
-/

namespace Bundler

inductive ModuleState
  | fresh
  | stale
  | rebuilding
  | errored
  /-- The target of a dynamic import that was not compiled yet. -/
  | lazy
deriving DecidableEq, Inhabited

def ModuleState.name : ModuleState → String
  | .fresh => "fresh"
  | .stale => "stale"
  | .rebuilding => "rebuilding"
  | .errored => "errored"
  | .lazy => "lazy"

/-- A dependency, as the importer writes it, and where it leads. -/
structure Dependency where
  specifier : String
  kind : DependencyKind
  line : Nat
  /-- Nothing, if it could not be resolved. -/
  target : Option ModuleId
  external : Bool := false
deriving DecidableEq

structure Module where
  id : ModuleId
  /-- None for modules that were not loaded. -/
  loader : Option Loader := none
  fingerprint : Option Fingerprint := none
  /-- The body. -/
  code : String := ""
  /-- The text of a stylesheet. -/
  css : Option String := none
  /-- The length of body and stylesheet in bytes. -/
  size : Nat := 0
  external : Bool := false
  dependencies : List Dependency := []
  errors : List BuildError := []
  state : ModuleState
deriving DecidableEq

namespace Module

/-- A module outside the bundle. -/
def outside (id : ModuleId) : Module := { id, external := true, state := .fresh }

/-- The placeholder of a module that is compiled on request. -/
def placeholder (id : ModuleId) : Module := { id, state := .lazy }

/-- A module that could not be loaded. -/
def failed (id : ModuleId) (errors : List BuildError) : Module := { id, errors, state := .errored }

def isLazy (m : Module) : Bool := m.state = .lazy

/-- Whether the module takes part in chunks. -/
def isLive (m : Module) : Bool := !m.external && !m.isLazy

/-- All targets in the order of the source. -/
def targets (m : Module) : List ModuleId := m.dependencies.filterMap (·.target)

def staticTargets (m : Module) : List ModuleId :=
  (m.dependencies.filter (·.kind.isStatic)).filterMap (·.target)

def dynamicTargets (m : Module) : List ModuleId :=
  (m.dependencies.filter (!·.kind.isStatic)).filterMap (·.target)

/-- Keeps the first of equal items. -/
def distinct {α : Type} [DecidableEq α] (l : List α) : List α :=
  l.foldl (fun out a => if out.contains a then out else out ++ [a]) []

/-- Each target once. -/
def dependencyIds (m : Module) : List ModuleId := distinct m.targets

def hasResolveError (m : Module) : Bool := m.errors.any (·.isResolve)

/-- The state of a module at rest. -/
def settled (m : Module) : Module :=
  if m.isLazy then m else { m with state := if m.errors.isEmpty then .fresh else .errored }

end Module

end Bundler
