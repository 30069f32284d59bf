import Bundler.Text.Unicode

/-!
# Cutting and joining text

Lines, pieces between separators, substitution and trimming, on lists of characters.
-/

namespace Bundler.Text

/-- The pieces between the separators; there is one piece more than there are separators. -/
def pieces (sep : Char) : List Char → List (List Char)
  | [] => [[]]
  | c :: cs =>
    if c = sep then [] :: pieces sep cs
    else match pieces sep cs with
      | [] => [[c]]
      | p :: ps => (c :: p) :: ps

/-- What stands before and after the first `sep`. -/
def splitOnce? (sep : Char) : List Char → Option (List Char × List Char)
  | [] => none
  | c :: cs => if c = sep then some ([], cs) else (splitOnce? sep cs).map fun p => (c :: p.1, p.2)

/-- The text before and after the first `pattern`. -/
def splitAtFirst? (pattern : List Char) : List Char → Option (List Char × List Char)
  | [] => if pattern.isEmpty then some ([], []) else none
  | c :: cs =>
    match pattern.isPrefixOf? (c :: cs) with
    | some rest => some ([], rest)
    | none => (splitAtFirst? pattern cs).map fun p => (c :: p.1, p.2)

def hasInfix (pattern s : List Char) : Bool := (splitAtFirst? pattern s).isSome

/-- Replaces what `pattern` matches, after `skip` characters that a match has used up. -/
def replaceFrom (pattern value : List Char) : Nat → List Char → List Char
  | _, [] => []
  | skip + 1, _ :: cs => replaceFrom pattern value skip cs
  | 0, c :: cs =>
    if pattern.isPrefixOf (c :: cs) then value ++ replaceFrom pattern value (pattern.length - 1) cs
    else c :: replaceFrom pattern value 0 cs

/-- Replaces every occurrence of a non-empty pattern, from left to right. -/
def replaceAll (pattern value s : List Char) : List Char := replaceFrom pattern value 0 s

/-- Drops one carriage return at the end. -/
def dropReturn (line : List Char) : List Char :=
  if line.getLast? = some '\r' then line.dropLast else line

/-- The lines of a text. A line ends with a line feed, before which one carriage return is
dropped; text behind the last line feed is a line of its own. -/
def lines (s : List Char) : List (List Char) :=
  let ps := pieces '\n' s
  ps.dropLast.map dropReturn ++ (if ps.getLast? = some [] then [] else ps.getLast?.toList)

def trim (s : List Char) : List Char :=
  ((s.dropWhile isBlank).reverse.dropWhile isBlank).reverse

/-- How many lines end within `s`. -/
def countBreaks (s : List Char) : Nat := s.count '\n'

/-! ## The same on strings -/

def trimmed (s : String) : String := String.ofList (trim s.toList)

def substitute (pattern value s : String) : String :=
  String.ofList (replaceAll pattern.toList value.toList s.toList)

def startsWith (s start : String) : Bool := start.toList.isPrefixOf s.toList

def endsWith (s ending : String) : Bool := ending.toList.isSuffixOf s.toList

def includes (s part : String) : Bool := hasInfix part.toList s.toList

end Bundler.Text
