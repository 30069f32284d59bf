import Bundler.Json.Printer

/-!
# Why a JSON text is refused

Faults of the notation, and faults of a value that is read for a given purpose. A failure names
the line and the column, counted in bytes, where reading stopped.
-/

namespace Bundler.Json

/-- A value that was met where another kind was expected. -/
inductive Found
  | null
  | bool (b : Bool)
  | number (n : Number)
  | text (s : String)
  | list
  | object
deriving DecidableEq

inductive Fault
  | endInList
  | endInObject
  | endInString
  | endInValue
  | noColon
  | noListSeparator
  | noObjectSeparator
  | brokenWord
  | noValue
  | badEscape
  | badNumber
  | tooLarge
  | badUnicode
  | controlCharacter
  | keyNotText
  | loneSurrogate
  | halfSurrogate
  | trailingComma
  | trailingText
  | tooDeep
  | wrongKind (found : Found) (expected : String)
  | wrongValue (found : Found) (expected : String)
  | wrongLength (length : Nat) (expected : String)
  | missingField (name : String)
  | repeatedField (name : String)
  | unknownChoice (given : String) (choices : List String)
deriving DecidableEq

/-- A fault and, once it is known, the line and column of it. -/
structure Failure where
  fault : Fault
  place : Option (Nat × Nat)
deriving DecidableEq

/-- The hexadecimal digits of a character number. -/
def numberedChar (c : Char) : List Char := "\\u\x7b".toList ++ Nat.toDigits 16 c.toNat ++ ['}']

/-- A character of a quoted text in a message. -/
def shownChar (c : Char) : List Char :=
  if c = '"' then ['\\', '"']
  else if c = '\\' then ['\\', '\\']
  else if c = '\n' then ['\\', 'n']
  else if c = '\r' then ['\\', 'r']
  else if c = '\t' then ['\\', 't']
  else if c = '\x00' then ['\\', '0']
  else if Text.isHidden c then numberedChar c
  else [c]

/-- A text between quotes in a message. -/
def shown (s : String) : String := String.ofList ('"' :: (s.toList.flatMap shownChar ++ ['"']))

def Found.describe : Found → String
  | .null => "null"
  | .bool b => "boolean `" ++ (if b then "true" else "false") ++ "`"
  | .number (.binary bits) =>
    "floating point `" ++ String.ofList (Number.binary bits).chars ++ "`"
  | .number n => "integer `" ++ String.ofList n.chars ++ "`"
  | .text s => "string " ++ shown s
  | .list => "sequence"
  | .object => "map"

/-- The choices that a value has, for a message. -/
def describeChoices : List String → String
  | [] => "there are no variants"
  | [a] => "expected `" ++ a ++ "`"
  | [a, b] => "expected `" ++ a ++ "` or `" ++ b ++ "`"
  | cs => "expected one of " ++ ", ".intercalate (cs.map fun c => "`" ++ c ++ "`")

def Fault.describe : Fault → String
  | .endInList => "EOF while parsing a list"
  | .endInObject => "EOF while parsing an object"
  | .endInString => "EOF while parsing a string"
  | .endInValue => "EOF while parsing a value"
  | .noColon => "expected `:`"
  | .noListSeparator => "expected `,` or `]`"
  | .noObjectSeparator => "expected `,` or `\x7d`"
  | .brokenWord => "expected ident"
  | .noValue => "expected value"
  | .badEscape => "invalid escape"
  | .badNumber => "invalid number"
  | .tooLarge => "number out of range"
  | .badUnicode => "invalid unicode code point"
  | .controlCharacter => "control character (\\u0000-\\u001F) found while parsing a string"
  | .keyNotText => "key must be a string"
  | .loneSurrogate => "lone leading surrogate in hex escape"
  | .halfSurrogate => "unexpected end of hex escape"
  | .trailingComma => "trailing comma"
  | .trailingText => "trailing characters"
  | .tooDeep => "recursion limit exceeded"
  | .wrongKind found expected => "invalid type: " ++ found.describe ++ ", expected " ++ expected
  | .wrongValue found expected => "invalid value: " ++ found.describe ++ ", expected " ++ expected
  | .wrongLength n expected => "invalid length " ++ toString n ++ ", expected " ++ expected
  | .missingField name => "missing field `" ++ name ++ "`"
  | .repeatedField name => "duplicate field `" ++ name ++ "`"
  | .unknownChoice given choices =>
    "unknown variant `" ++ given ++ "`, " ++ describeChoices choices

def Failure.line (f : Failure) : Nat := (f.place.map (·.1)).getD 0

def Failure.column (f : Failure) : Nat := (f.place.map (·.2)).getD 0

def Failure.message (f : Failure) : String :=
  match f.place with
  | some (l, c) => f.fault.describe ++ " at line " ++ toString l ++ " column " ++ toString c
  | none => f.fault.describe

end Bundler.Json
