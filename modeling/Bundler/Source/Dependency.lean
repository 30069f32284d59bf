/-!
# Dependencies of a source text

What a source text asks for: a specifier, the way it is asked for, and the line on which it
stands.
-/

namespace Bundler

inductive DependencyKind
  | staticImport
  | exportFrom
  | require
  | dynamicImport
  | cssImport
deriving DecidableEq, Inhabited

namespace DependencyKind

/-- Static dependencies are there before their importer runs. -/
def isStatic : DependencyKind → Bool
  | .dynamicImport => false
  | _ => true

def name : DependencyKind → String
  | .staticImport => "import"
  | .exportFrom => "exportFrom"
  | .require => "require"
  | .dynamicImport => "dynamicImport"
  | .cssImport => "cssImport"

end DependencyKind

/-- A specifier as it was found. -/
structure Mention where
  specifier : String
  kind : DependencyKind
  line : Nat
deriving DecidableEq

inductive ScanFault
  | unclosedString
  | unclosedBlockComment
  | unclosedTemplate
  | unclosedComment
deriving DecidableEq

def ScanFault.message : ScanFault → String
  | .unclosedString => "unterminated string literal"
  | .unclosedBlockComment => "unterminated block comment"
  | .unclosedTemplate => "unterminated template literal"
  | .unclosedComment => "unterminated comment"

/-- Why and where scanning gave up. -/
structure ScanError where
  fault : ScanFault
  line : Nat
  column : Nat
deriving DecidableEq

namespace Mention

/-- Adds a mention to those before it. A specifier stays where it came first; a static mention
turns a dynamic one static. -/
def merge (d : Mention) : List Mention → List Mention
  | [] => [d]
  | e :: es =>
    if e.specifier = d.specifier then
      (if !e.kind.isStatic && d.kind.isStatic then { e with kind := d.kind } else e) :: es
    else e :: merge d es

/-- Each specifier once. -/
def dedupe (found : List Mention) : List Mention := found.foldl (fun out d => d.merge out) []

end Mention

end Bundler
