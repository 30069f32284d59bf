import Bundler.Hook.Bridge
import Bundler.ModuleId
import Bundler.Options.Basic
import Bundler.Resolve.Lookup

/-!
# Resolving requests

A request first has the longest alias that fits it expanded. A request that is external stays as it
is; for another one the host may answer; else it is looked up in the file tree. Its query takes no
part in the look-up and stays on the result. If the host breaks down, whoever asked breaks down with
it, and the requests that were asked for at the same time are given up.
-/

namespace Bundler

structure ResolveError where
  specifier : String
  source : String
  reason : String
deriving DecidableEq

def ResolveError.message (e : ResolveError) : String :=
  "Cannot resolve '" ++ e.specifier ++ "' from '" ++ e.source ++ "': " ++ e.reason

def ResolveError.toBuildError (e : ResolveError) : BuildError :=
  .resolve e.source e.specifier e.reason

/-- A module that a request leads to. -/
structure Resolved where
  id : ModuleId
  external : Bool
deriving DecidableEq

/-- What became of a request, and the failure of the host, if it failed. -/
structure Resolution where
  outcome : Except ResolveError Resolved
  hookError : Option BuildError

/-- The rules of a project for requests. -/
structure Resolver where
  root : Path
  /-- The aliases, the longest one first. -/
  aliases : List (String × String)
  externals : List Glob.Pattern
  extensions : List String

/-- What changes outside of a session. -/
structure World where
  files : FileTree
  host : Option Host := none

/-- What a session keeps about questions that were asked before. -/
structure Inquiries where
  bridge : Bridge := {}
  cache : LookupCache := {}

namespace Resolver

/-- Longer aliases come first, and those of one length in order. -/
def aliasBefore (a b : String × String) : Bool :=
  let la := Text.byteLength a.1
  let lb := Text.byteLength b.1
  lb < la || (la = lb && a.1 ≤ b.1)

def ofOptions (o : Options) (root : Path) : Resolver :=
  { root
    aliases := o.aliases.toList.mergeSort aliasBefore
    externals := o.externals.filterMap fun p => (Glob.Pattern.parse p).toOption
    extensions := o.extensions }

/-- What an alias leaves of a request: nothing, or a slash and what follows it. -/
def aliasRest? (key request : String) : Option String :=
  match key.toList.isPrefixOf? request.toList with
  | some [] => some ""
  | some ('/' :: rest) => some (String.ofList ('/' :: rest))
  | _ => none

/-- The target of an alias; a relative one is taken from the root. -/
def aliasTarget (r : Resolver) (target : String) : String :=
  if Text.startsWith target "./" || Text.startsWith target "../" then (r.root.join ⟨target⟩).text
  else target

/-- Expands the first alias that fits a request. -/
def expand (r : Resolver) (request : String) : String :=
  let fits := r.aliases.findSome? fun a =>
    (aliasRest? a.1 request).map fun rest => r.aliasTarget a.2 ++ rest
  fits.getD request

def isExternal (r : Resolver) (request : String) : Bool := r.externals.any (·.accepts request)

/-- Looks an expanded request up in the file tree. -/
def lookup (r : Resolver) (files : FileTree) (s : Inquiries) (dir : Path) (request : String) :
    Inquiries × Except LookupFault Path :=
  let (cache, found) := s.cache.lookup ⟨files, r.extensions⟩ dir request
  ({ s with cache }, found)

/-- Resolves a specifier by the file tree alone; `request` is what it expands to. -/
def resolveInFiles (r : Resolver) (files : FileTree) (s : Inquiries) (specifier : String)
    (importer : Option ModuleId) (dir : Path) (request : String) (query : Option String)
    (hookError : Option BuildError) : Inquiries × Resolution :=
  let (s, found) := r.lookup files s dir request
  match found with
  | .ok path => (s, ⟨.ok ⟨.ofPath path query, false⟩, hookError⟩)
  | .error fault =>
    let source := match importer with
      | some id => id.path
      | none => dir
    (s, ⟨.error ⟨specifier, source.text, fault.message⟩, hookError⟩)

/-- What the host is asked for a specifier. -/
def asked (r : Resolver) (specifier : String) : String :=
  withQuery (r.expand (splitQuery specifier).1) (splitQuery specifier).2

/-- Resolves a specifier that `importer` mentions, with relative requests taken from `dir`. The
error is the reason of a breakdown. -/
def resolve (r : Resolver) (w : World) (s : Inquiries) (specifier : String)
    (importer : Option ModuleId) (dir : Path) : Inquiries × Except String Resolution :=
  let (request, query) := splitQuery specifier
  let expanded := r.expand request
  let full := r.asked specifier
  if r.isExternal expanded then (s, .ok ⟨.ok ⟨⟨full⟩, true⟩, none⟩)
  else
    let (bridge, o) := s.bridge.resolve w.host ⟨importer.map (·.text), full⟩
    let s := { s with bridge }
    let inFiles := fun hookError =>
      let (s, x) := r.resolveInFiles w.files s specifier importer dir expanded query hookError
      (s, Except.ok x)
    match o with
    | .answered (some a) => (s, .ok ⟨.ok ⟨⟨a.uri⟩, a.external⟩, none⟩)
    | .answered none => inFiles none
    | .failed f => inFiles (some (Bridge.failure .resolve full f))
    | .panicked reason => (s, .error reason)

/-- Whether the host is silent on where a specifier leads. -/
def isStalled (r : Resolver) (w : World) (b : Bridge) (specifier : String)
    (importer : Option ModuleId) : Bool :=
  !r.isExternal (r.expand (splitQuery specifier).1) &&
    b.isStalled w.host (.resolve ⟨importer.map (·.text), r.asked specifier⟩)

/-- Gives a specifier up on which the host is silent. -/
def abandon (r : Resolver) (w : World) (s : Inquiries) (specifier : String)
    (importer : Option ModuleId) : Inquiries :=
  { s with bridge := s.bridge.abandon w.host ⟨importer.map (·.text), r.asked specifier⟩ }

section
variable {α : Type} (r : Resolver) (w : World) (specifier : α → String)
  (importer : Option ModuleId) (dir : Path)

/-- Resolves those of some specifiers that are still open, one after the other. One on which the
host is silent stays open, unless this is the time (`late`) when its limit has passed. A breakdown
ends it: those behind it are not asked for, and those that wait are given up. -/
def resolveOpen (late : Bool) : List (α × Option Resolution) → Inquiries →
    Inquiries × Except String (List (α × Option Resolution))
  | [], s => (s, .ok [])
  | (a, some x) :: rest, s =>
    let (s, out) := resolveOpen late rest s
    (s, out.map ((a, some x) :: ·))
  | (a, none) :: rest, s =>
    if !late && r.isStalled w s.bridge (specifier a) importer then
      match resolveOpen late rest s with
      | (s, .ok rest) => (s, .ok ((a, none) :: rest))
      | (s, .error reason) => (r.abandon w s (specifier a) importer, .error reason)
    else
      match r.resolve w s (specifier a) importer dir with
      | (s, .ok x) =>
        let (s, out) := resolveOpen late rest s
        (s, out.map ((a, some x) :: ·))
      | (s, .error reason) => (s, .error reason)

/-- Resolves some specifiers that are asked for at once; those on which the host is silent come
last. -/
def resolveTogether (items : List α) (s : Inquiries) :
    Inquiries × Except String (List (α × Resolution)) :=
  match resolveOpen r w specifier importer dir false (items.map (·, none)) s with
  | (s, .error reason) => (s, .error reason)
  | (s, .ok found) =>
    let (s, found) := resolveOpen r w specifier importer dir true found s
    (s, found.map fun found => found.filterMap fun x => x.2.map (x.1, ·))

end

end Resolver

/-- Looks an import up in the file tree alone; its query stays on the path. -/
def resolveFile (files : FileTree) (dir : Path) (specifier : String) :
    Except ResolveError Path :=
  let (request, query) := splitQuery specifier
  match (Lookup.mk files ({} : Options).extensions).find dir request with
  | .ok path => .ok ⟨withQuery path.text query⟩
  | .error fault => .error ⟨request, dir.text, fault.message⟩

end Bundler
