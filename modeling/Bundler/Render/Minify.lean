import Bundler.Text.Split

/-!
# Minifying

The default minifier drops indentation, blank lines and lines that are comments.
-/

namespace Bundler

abbrev Minifier := String → String

/-- Whether a trimmed line says nothing to a machine. -/
def isIdleLine (line : List Char) : Bool := line.isEmpty || "//".toList.isPrefixOf line

def minifyLines (s : List Char) : List (List Char) :=
  ((Text.lines s).map Text.trim).filter (!isIdleLine ·)

def minifyBlanks : Minifier := fun s =>
  String.ofList ((minifyLines s.toList).flatMap (· ++ ['\n']))

end Bundler
