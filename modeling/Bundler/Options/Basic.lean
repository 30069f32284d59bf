import Bundler.Error
import Bundler.Glob
import Bundler.Loader
import Bundler.Regex.Parser

/-!
# Options

What a project sets, the defaults, and the conditions under which a build can start.
-/

namespace Bundler

/-- The chunks that a cache group looks at. -/
inductive ChunkScope
  /-- Entry chunks. -/
  | initial
  /-- Entry and async chunks. -/
  | all
deriving DecidableEq, Inhabited

def ChunkScope.name : ChunkScope → String
  | .initial => "initial"
  | .all => "all"

/-- A rule that moves modules which several chunks share into a chunk of their own. -/
structure CacheGroup where
  name : String
  chunks : ChunkScope := .initial
  /-- The least total size of the modules that are moved. -/
  minSize : Nat := 0
  /-- In how many chunks a module has to be. -/
  minChunks : Nat := 2
  /-- A regular expression that ids have to match. -/
  test : Option String := none
deriving DecidableEq

/-- The group that is in force when none is set. -/
def CacheGroup.commons : CacheGroup := { name := "commons", chunks := .all }

structure Options where
  /-- The specifiers of the entries, by name. -/
  entries : Table String String := {}
  minify : Bool := false
  root : Path := ⟨"."⟩
  outdir : Option Path := none
  /-- The pattern of output file names. -/
  entryFilename : String := "[name].js"
  loader : Table String Loader := {}
  inlineStyle : Bool := false
  aliases : Table String String := {}
  refresh : Bool := false
  sourceMap : Bool := false
  codeSplitting : Bool := false
  svgr : Bool := false
  lazyCompilation : Bool := false
  progress : Bool := false
  /-- Patterns of specifiers that are not bundled. -/
  externals : List String := []
  /-- The extensions that a look-up tries, in order. -/
  extensions : List String := [".tsx", ".ts", ".jsx", ".js", ".mjs", ".cjs", ".json", ".css"]
  cacheGroups : List CacheGroup := []
  strict : Bool := false
  /-- How long a host may take for an answer, in milliseconds. -/
  hookTimeoutMs : Option Nat := none
deriving DecidableEq

namespace Options

/-- Whether the names of the output files of different chunks differ. -/
def namesOutputs (o : Options) : Bool :=
  Text.includes o.entryFilename "[name]" || Text.includes o.entryFilename "[contenthash]"

/-- The first complaint of some checks. -/
def firstComplaint {α : Type} (check : α → Option String) (items : List α) : Except Error Unit :=
  match items.findSome? check with
  | some reason => .error (.invalidConfig reason)
  | none => .ok ()

def checkEntry (e : String × String) : Option String :=
  if e.1.isEmpty || e.2.isEmpty then
    some ("entry '" ++ e.1 ++ "' must have a non-empty name and path")
  else none

def checkExternal (pattern : String) : Option String :=
  match Glob.Pattern.parse pattern with
  | .ok _ => none
  | .error e => some ("invalid external pattern '" ++ pattern ++ "': " ++ e.message)

def checkGroup (g : CacheGroup) : Option String :=
  if g.name.isEmpty then some "cache group name must not be empty"
  else if g.minChunks = 0 then some ("cache group '" ++ g.name ++ "' must have minChunks >= 1")
  else
    match g.test with
    | none => none
    | some test =>
      match Regex.parse test with
      | .ok _ => none
      | .error e =>
        some ("invalid test regex for cache group '" ++ g.name ++ "': " ++ e.message)

def checkExtension (ext : String) : Option String :=
  if Text.startsWith ext "." then none else some ("extension '" ++ ext ++ "' must start with a dot")

/-- Whether a build can start; the first fault otherwise. -/
def validate (o : Options) : Except Error Unit := do
  if o.entries.isEmpty then throw (.invalidConfig "at least one entry is required")
  firstComplaint checkEntry o.entries.toList
  if !o.namesOutputs && (1 < o.entries.size || o.codeSplitting) then
    throw (.invalidConfig ("entryFilename '" ++ o.entryFilename ++
      "' must contain [name] or [contenthash] when more than one chunk can be emitted"))
  firstComplaint checkExternal o.externals
  firstComplaint checkGroup o.cacheGroups
  firstComplaint checkExtension o.extensions

/-- The loader of every extension. -/
def loaders (o : Options) : Table String Loader := Loader.map o.loader

/-- The cache groups in force. -/
def groups (o : Options) : List CacheGroup :=
  if !o.codeSplitting then []
  else if o.cacheGroups.isEmpty then [.commons]
  else o.cacheGroups

end Options

end Bundler
