import Bundler.Source.Dependency
import Bundler.Text.Unicode

/-!
# Cursors and lexemes

A cursor stands between the characters behind it, the last one first, and those ahead. Its line
and column follow from what is behind. The functions of this module pass one lexeme each: a
comment, a string, a regular expression, a word or a gap between tokens.
-/

namespace Bundler.Source

structure Cursor where
  behind : List Char
  ahead : List Char
deriving DecidableEq

/-- Letters, `_` and `$` begin a word. -/
def isWordStart (c : Char) : Bool := Text.isLetter c || c = '_' || c = '$'

def isWordChar (c : Char) : Bool := Text.isLetterOrNumeral c || c = '_' || c = '$'

def isQuote (c : Char) : Bool := c = '"' || c = '\''

namespace Cursor

def start (s : String) : Cursor := ⟨[], s.toList⟩

def line (c : Cursor) : Nat := 1 + c.behind.count '\n'

def column (c : Cursor) : Nat := 1 + (c.behind.takeWhile (· ≠ '\n')).length

def error (c : Cursor) (f : ScanFault) : ScanError := ⟨f, c.line, c.column⟩

/-- Passes one character. -/
def next (c : Cursor) : Cursor :=
  match c.ahead with
  | [] => c
  | a :: rest => ⟨a :: c.behind, rest⟩

end Cursor

/-! ## Comments and gaps -/

/-- Passes what is left of a line. -/
def skipLine : List Char → List Char → Cursor
  | behind, [] => ⟨behind, []⟩
  | behind, c :: rest => if c = '\n' then ⟨behind, c :: rest⟩ else skipLine (c :: behind) rest

/-- Passes the inside and the end of a block comment, if it ends. -/
def skipBlock? : List Char → List Char → Option Cursor
  | _, [] => none
  | behind, '*' :: '/' :: rest => some ⟨'/' :: '*' :: behind, rest⟩
  | behind, c :: rest => skipBlock? (c :: behind) rest

/-- Where a gap between tokens has come to. -/
inductive Gap
  | blank
  | lineComment
  | blockComment

/-- Passes blanks and comments between the tokens of a clause. A comment that does not end takes
all that is left. -/
def skipGap : Gap → List Char → List Char → Cursor
  | _, behind, [] => ⟨behind, []⟩
  | .blank, behind, '/' :: '/' :: rest => skipGap .lineComment ('/' :: '/' :: behind) rest
  | .blank, behind, '/' :: '*' :: rest => skipGap .blockComment ('*' :: '/' :: behind) rest
  | .blank, behind, c :: rest =>
    if Text.isBlank c then skipGap .blank (c :: behind) rest else ⟨behind, c :: rest⟩
  | .lineComment, behind, c :: rest =>
    skipGap (if c = '\n' then .blank else .lineComment) (c :: behind) rest
  | .blockComment, behind, '*' :: '/' :: rest => skipGap .blank ('/' :: '*' :: behind) rest
  | .blockComment, behind, c :: rest => skipGap .blockComment (c :: behind) rest

def Cursor.skipGap (c : Cursor) : Cursor := Source.skipGap .blank c.behind c.ahead

/-! ## Literals -/

/-- The content of a string up to its closing quote. A backslash takes the next character as it
is; the end of the line ends the string without a quote. -/
def stringBody? (quote : Char) : List Char → List Char → Option (List Char × Cursor)
  | _, [] => none
  | _, ['\\'] => none
  | behind, '\\' :: c :: rest =>
    (stringBody? quote (c :: '\\' :: behind) rest).map fun r => (c :: r.1, r.2)
  | behind, c :: rest =>
    if c = '\n' then none
    else if c = quote then some ([], ⟨c :: behind, rest⟩)
    else (stringBody? quote (c :: behind) rest).map fun r => (c :: r.1, r.2)

/-- The string whose opening quote is ahead. -/
def Cursor.string? (c : Cursor) : Option (String × Cursor) :=
  match c.ahead with
  | [] => none
  | quote :: rest =>
    (stringBody? quote (quote :: c.behind) rest).map fun r => (String.ofList r.1, r.2)

/-- Reads a word up to the first character that belongs to none. -/
def takeWord : List Char → List Char → List Char × Cursor
  | behind, [] => ([], ⟨behind, []⟩)
  | behind, c :: rest =>
    if isWordChar c then
      let r := takeWord (c :: behind) rest
      (c :: r.1, r.2)
    else ([], ⟨behind, c :: rest⟩)

/-- Passes a regular expression behind its opening slash, with its flags. A slash within brackets
does not end it; the end of the line does, and then it was none. -/
def skipRegex? : Bool → List Char → List Char → Option Cursor
  | _, _, [] => none
  | _, _, ['\\'] => none
  | inSet, behind, '\\' :: c :: rest =>
    if c = '\n' then none else skipRegex? inSet (c :: '\\' :: behind) rest
  | inSet, behind, c :: rest =>
    if c = '\n' then none
    else if c = '[' then skipRegex? true (c :: behind) rest
    else if c = ']' then skipRegex? false (c :: behind) rest
    else if c = '/' && !inSet then some (takeWord (c :: behind) rest).2
    else skipRegex? inSet (c :: behind) rest

/-- Words behind which a slash begins a regular expression. -/
def regexKeywords : List String :=
  ["return", "typeof", "instanceof", "in", "of", "new", "delete", "void", "throw", "case", "do",
   "else", "yield", "await"]

/-- Whether a slash begins a regular expression rather than a division, by what stands before
it. -/
def regexMayFollow (behind : List Char) : Bool :=
  match behind.dropWhile Text.isBlank with
  | [] => true
  | c :: rest =>
    if isWordChar c then
      regexKeywords.contains (String.ofList ((c :: rest).takeWhile isWordChar).reverse)
    else !(c = ')' || c = ']' || c = '"' || c = '\'' || c = '`')

/-- Whether a word may begin here: not inside another word and not as a property. -/
def atBoundary (behind : List Char) : Bool :=
  match behind with
  | [] => true
  | c :: _ => !isWordChar c && c ≠ '.'

end Bundler.Source
