import Bundler.FileTree.Basic
import Bundler.Json.Failure

/-!
# Errors

A build error belongs to a module, or to an entry, and never ends a build. An error is what an
operation answers instead of a result.
-/

namespace Bundler

/-- The two questions that a host is asked. -/
inductive HookKind
  | resolve
  | load
deriving DecidableEq

def HookKind.name : HookKind → String
  | .resolve => "onResolve"
  | .load => "onLoad"

inductive BuildError
  | resolve (importer specifier reason : String)
  | load (id reason : String)
  | parse (id : String) (line column : Option Nat) (message : String)
  | hook (hook : HookKind) (key reason : String)
deriving DecidableEq

namespace BuildError

def code : BuildError → String
  | .resolve .. => "RESOLVE_ERROR"
  | .load .. => "LOAD_ERROR"
  | .parse .. => "PARSE_ERROR"
  | .hook .. => "PLUGIN_ERROR"

def isResolve : BuildError → Bool
  | .resolve .. => true
  | _ => false

/-- A place in a message; a column without a line is not told. -/
def place : Option Nat → Option Nat → String
  | some l, some c => " at " ++ toString l ++ ":" ++ toString c
  | some l, none => " at line " ++ toString l
  | none, _ => ""

def message : BuildError → String
  | .resolve importer specifier reason =>
    "Cannot resolve '" ++ specifier ++ "' from '" ++ importer ++ "': " ++ reason
  | .load id reason => "Cannot load '" ++ id ++ "': " ++ reason
  | .parse id line column text =>
    "Failed to parse '" ++ id ++ "'" ++ place line column ++ ": " ++ text
  | .hook kind key reason => kind.name ++ " hook failed for '" ++ key ++ "': " ++ reason

end BuildError

/-- A build error in the form in which it is reported. -/
structure Diagnostic where
  code : String
  message : String
  /-- The module it belongs to; none for an entry. -/
  module : Option String
deriving DecidableEq

def BuildError.diagnostic (module : Option String) (e : BuildError) : Diagnostic :=
  ⟨e.code, e.message, module⟩

inductive Error
  | io (path : Path) (cause : OsError)
  | configRead (path : Path) (cause : OsError)
  | configParse (path : Path) (cause : Json.Failure)
  | configJson (cause : Json.Failure)
  | invalidConfig (reason : String)
  | buildFailed (diagnostics : List Diagnostic)
  | cancelled
  | other (message : String)
deriving DecidableEq

def Error.message : Error → String
  | .io path cause => "IO error at " ++ path.text ++ ": " ++ cause.message
  | .configRead path cause => "Failed to read config at " ++ path.text ++ ": " ++ cause.message
  | .configParse path cause => "Failed to parse config at " ++ path.text ++ ": " ++ cause.message
  | .configJson cause => "Failed to parse config: " ++ cause.message
  | .invalidConfig reason => "Invalid config: " ++ reason
  | .buildFailed ds => "Build failed with " ++ toString ds.length ++ " module error(s)"
  | .cancelled => "Build cancelled"
  | .other message => message

end Bundler
