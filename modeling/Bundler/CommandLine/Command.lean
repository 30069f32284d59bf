import Bundler.CommandLine.Arguments
import Bundler.Path

/-!
# Commands

The commands of the program and their flags.
-/

namespace Bundler.CommandLine

structure BuildRequest where
  config : Option Path
  /-- Entries in the form `name=path` or `path`. -/
  entries : List String
  outdir : Option Path
  splitting : Bool
  minify : Bool
  sourceMap : Bool
  strict : Bool
  watch : Bool

inductive Command
  | build (request : BuildRequest)
  | resolve (specifier : String) (dir config : Option Path)
  | resolveFile (dir : Path) (specifier : String)

structure Invocation where
  json : Bool
  cwd : Option Path
  command : Command

/-! ## Flags -/

def isNotEmpty (s : String) : Bool := !s.isEmpty

/-- Whether a text is a number below 2^64. -/
def isCount (s : String) : Bool :=
  let digits := match s.toList with
    | '+' :: cs => cs
    | cs => cs
  !digits.isEmpty && digits.all Char.isDigit &&
    digits.foldl (fun n c => 10 * n + (c.toNat - '0'.toNat)) 0 < Nat.pow 2 64

def verboseFlag : Flag :=
  { name := "verbose", short := some 'v', repeats := true
    about := "Increase logging verbosity (-v for DEBUG, -vv for TRACE)" }

def jsonFlag : Flag :=
  { name := "json", about := "Emit JSON formatted output (machine-readable)" }

def cwdFlag : Flag :=
  { name := "cwd", value := some "PATH", accepts := isNotEmpty
    about := "Override the working directory" }

def helpFlag : Flag := { name := "help", short := some 'h', about := "Print help" }

def versionFlag : Flag := { name := "version", short := some 'V', about := "Print version" }

def configFlag (about : String) : Flag :=
  { name := "config", short := some 'c', value := some "FILE", accepts := isNotEmpty, about }

/-! ## Usages -/

def programName : String := "kestrel"

def buildUsage : Usage :=
  { name := programName ++ " build"
    about := "Build the project"
    flags :=
      [configFlag "Config file (defaults to kestrel.json in the working directory)",
       verboseFlag,
       { name := "entry", short := some 'e', value := some "NAME=PATH", repeats := true
         about := "Entry as name=path; repeatable. Replaces config entries when given" },
       jsonFlag, cwdFlag,
       { name := "outdir", short := some 'o', value := some "DIR", accepts := isNotEmpty
         about := "Output directory" },
       { name := "splitting", about := "Extract shared modules into separate chunks" },
       { name := "minify", about := "Minify output" },
       { name := "sourcemap", about := "Emit source maps" },
       { name := "strict", about := "Fail when any module has errors" },
       { name := "watch", short := some 'w', about := "Rebuild on file changes" },
       { name := "debounce-ms", value := some "MS", accepts := isCount
         about := "Coalescing window for file events in watch mode [default: 50]" },
       helpFlag] }

def resolveUsage : Usage :=
  { name := programName ++ " resolve"
    about := "Resolve a specifier the way the bundler would"
    flags :=
      [{ name := "dir", value := some "DIR", accepts := isNotEmpty
         about := "Directory to resolve from" },
       verboseFlag,
       configFlag "Config file providing aliases and externals",
       jsonFlag, cwdFlag, helpFlag]
    operands :=
      [{ name := "SPECIFIER", about := "Specifier to resolve (e.g. \"./util\" or \"react\")" }] }

def resolveFileUsage : Usage :=
  { name := programName ++ " resolve-file"
    about := "Resolve an import against the filesystem only"
    flags := [verboseFlag, jsonFlag, cwdFlag, helpFlag]
    operands :=
      [{ name := "BASE", accepts := isNotEmpty, about := "Base directory" },
       { name := "IMPORT", about := "Import path, optionally with a ?query suffix" }] }

def helpUsage : Usage :=
  { name := programName ++ " help"
    about := "Print this message or the help of the given subcommand(s)"
    flags := []
    operands :=
      [{ name := "COMMAND", repeats := true, about := "Print help for the subcommand(s)" }] }

def programUsage : Usage :=
  { name := programName
    about := "An incremental JavaScript module bundler"
    flags := [verboseFlag, jsonFlag, cwdFlag, helpFlag, versionFlag]
    commands :=
      [("build", buildUsage.about), ("resolve", resolveUsage.about),
       ("resolve-file", resolveFileUsage.about),
       ("help", helpUsage.about)] }

/-! ## Reading -/

def unknownCommand {α : Type} (name : String) : Except Refusal α :=
  .error (.misuse ("unrecognized subcommand '" ++ name ++ "'"))

def usageOf (name : String) : Except Refusal Usage :=
  match name with
  | "build" => .ok buildUsage
  | "resolve" => .ok resolveUsage
  | "resolve-file" => .ok resolveFileUsage
  | "help" => .ok helpUsage
  | name => unknownCommand name

/-- What is asked for behind the command that helps. -/
def helpFor : List String → Refusal
  | [] => .help programUsage
  | name :: rest =>
    match usageOf name, rest with
    | .error r, _ => r
    | .ok u, [] => .help u
    | .ok _, extra :: _ => .misuse ("unrecognized subcommand '" ++ extra ++ "'")

def pathOf (g : Given) (name : String) : Option Path := (g.value? name).map fun s => ⟨s⟩

def buildRequest (g : Given) : BuildRequest :=
  { config := pathOf g "config"
    entries := g.values "entry"
    outdir := pathOf g "outdir"
    splitting := g.has "splitting"
    minify := g.has "minify"
    sourceMap := g.has "sourcemap"
    strict := g.has "strict"
    watch := g.has "watch" }

/-- The command of a name and of what was given behind it. -/
def commandOf (name : String) (g : Given) : Except Refusal Command :=
  match name, g.operands with
  | "build", _ => .ok (.build (buildRequest g))
  | "resolve", [specifier] => .ok (.resolve specifier (pathOf g "dir") (pathOf g "config"))
  | "resolve-file", [dir, specifier] => .ok (.resolveFile ⟨dir⟩ specifier)
  | name, _ => unknownCommand name

/-- Reads the arguments of the program. A flag behind the command wins over the same flag in front
of it. -/
def Invocation.parse (args : List String) : Except Refusal Invocation := do
  let (before, rest) ← readArguments programUsage args {}
  match rest with
  | [] => throw (.misuse "a subcommand is required")
  | "help" :: rest => throw (helpFor rest)
  | name :: rest =>
    let behind ← (← usageOf name).read rest
    return {
      json := before.has "json" || behind.has "json"
      cwd := (pathOf behind "cwd").or (pathOf before "cwd")
      command := ← commandOf name behind }

end Bundler.CommandLine
