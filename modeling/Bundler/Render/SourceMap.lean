import Bundler.Json.Printer
import Bundler.Text.Base64

/-!
# Source maps

A map of version 3 with one segment at the start of each line that comes from a source. Numbers are
written in base 64, five bits to a digit, the least ones first; the lowest bit of all is the sign.
-/

namespace Bundler

namespace SourceMap

/-- The digits of a number; one that is not the last has 32 added. -/
def digits (n : Nat) : List Nat :=
  if n < 32 then [n] else (n % 32 + 32) :: digits (n / 32)
termination_by n

/-- A number with its sign in the lowest bit. -/
def signed (i : Int) : Nat := if i < 0 then 2 * i.natAbs + 1 else 2 * i.natAbs

def encode (i : Int) : List Char := (digits (signed i)).map Text.Base64.digit

/-- An output line, the source it comes from, and the line of that source, from zero. -/
structure Mapping where
  line : Nat
  source : Nat
  sourceLine : Nat
deriving DecidableEq

/-- Writes mappings behind those of a line, a source and a source line. -/
def mappingChars : Nat → Int → Int → List Mapping → List Char
  | _, _, _, [] => []
  | line, source, sourceLine, m :: ms =>
    List.replicate (m.line - line) ';' ++ encode 0 ++ encode (m.source - source) ++
      encode (m.sourceLine - sourceLine) ++ encode 0 ++
      mappingChars (max line m.line) m.source m.sourceLine ms

end SourceMap

/-- The sources by name and text, and the mappings in the order of the output. -/
structure SourceMap where
  sources : List (String × String)
  mappings : List SourceMap.Mapping

namespace SourceMap

def toJson (m : SourceMap) (file : String) : Json :=
  .object
    [("file", .text file),
     ("mappings", .text (String.ofList (mappingChars 0 0 0 m.mappings))),
     ("sources", .texts (m.sources.map (·.1))),
     ("sourcesContent", .texts (m.sources.map (·.2))),
     ("version", .nat 3)]

end SourceMap

end Bundler
