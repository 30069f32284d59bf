import Bundler.Source.Dependency
import Bundler.Text.Split

/-!
# Dependencies of stylesheets

The `@import` rules of a stylesheet, outside comments. What is imported from elsewhere on the net
or given as data is no dependency.
-/

namespace Bundler.Source

/-- Blanks comments out, keeping their line breaks. Of the comment that is open, if one is, the
line is given. -/
def blankComments : Option Nat → Nat → List Char → Except ScanError (List Char)
  | none, _, [] => .ok []
  | some opened, _, [] => .error ⟨.unclosedComment, opened, 1⟩
  | none, line, '/' :: '*' :: rest => (blankComments (some line) line rest).map (' ' :: ' ' :: ·)
  | some _, line, '*' :: '/' :: rest => (blankComments none line rest).map (' ' :: ' ' :: ·)
  | opened, line, c :: rest =>
    (blankComments opened (if c = '\n' then line + 1 else line) rest).map
      ((if opened.isSome && c ≠ '\n' then ' ' else c) :: ·)

def stripComments (s : List Char) : Except ScanError (List Char) := blankComments none 1 s

/-- The text up to a closing quote, and what follows the quote. -/
def quoted? (quote : Char) : List Char → Option (List Char × List Char)
  | [] => none
  | c :: rest =>
    if c = quote then some ([], rest) else (quoted? quote rest).map fun r => (c :: r.1, r.2)

/-- Whether a character can stand in a specifier without quotes. -/
def isBare (c : Char) : Bool :=
  !(c = '"' || c = '\'' || c = ';' || c = ')' || Text.isAsciiBlank c)

/-- A specifier, with how many characters stand before it, and what follows it. -/
structure Target where
  before : Nat
  specifier : List Char
  rest : List Char

/-- A quoted or bare specifier at the front, behind `before` characters. -/
def target? (before : Nat) : List Char → Option Target
  | [] => none
  | c :: rest =>
    if c = '"' ∨ c = '\'' then (quoted? c rest).map fun r => ⟨before + 1, r.1, r.2⟩
    else if isBare c then
      some ⟨before, (c :: rest).takeWhile isBare, (c :: rest).dropWhile isBare⟩
    else none

/-- The specifier of an import rule that begins at the front. `url(` is passed when a specifier
follows it, and taken for the start of one otherwise. -/
def importTarget? (s : List Char) : Option Target :=
  match "@import".toList.isPrefixOf? s with
  | none => none
  | some rest =>
    let body := rest.dropWhile Text.isAsciiBlank
    let before := 7 + (rest.length - body.length)
    if before = 7 then none
    else
      let inUrl := match "url(".toList.isPrefixOf? body with
        | none => none
        | some inside =>
          let inside' := inside.dropWhile Text.isAsciiBlank
          target? (before + 4 + (inside.length - inside'.length)) inside'
      inUrl.or (target? before body)

/-- Whether a specifier names something that is not a file of the project. -/
def isRemote (specifier : String) : Bool :=
  ["http://", "https://", "//", "data:"].any (Text.startsWith specifier ·)

/-- The mention of a target on a line. -/
def targetMention (specifier : List Char) (line : Nat) : Option Mention :=
  let s := String.ofList (Text.trim specifier)
  if s.isEmpty || isRemote s then none else some ⟨s, .cssImport, line⟩

/-- The mentions from a line on. -/
def importsFrom : Nat → Nat → List Char → List Mention
  | 0, _, _ => []
  | _, _, [] => []
  | fuel + 1, line, c :: rest =>
    match importTarget? (c :: rest) with
    | some t =>
      let line' := line + Text.countBreaks ((c :: rest).take t.before)
      let passed := (c :: rest).take ((c :: rest).length - t.rest.length)
      (targetMention t.specifier line').toList ++
        importsFrom fuel (line + Text.countBreaks passed) t.rest
    | none => importsFrom fuel (if c = '\n' then line + 1 else line) rest

/-- The dependencies of a stylesheet, each specifier once and in the order of the source. -/
def scanStylesheet (s : String) : Except ScanError (List Mention) := do
  let cs ← stripComments s.toList
  return Mention.dedupe (importsFrom cs.length 1 cs)

end Bundler.Source
