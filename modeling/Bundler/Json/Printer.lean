import Bundler.Json.Basic

/-!
# Writing JSON

The compact form has no blanks. The spread form puts each item and field on a line of its own,
indented by two blanks for each level; what is empty stays closed.

Doubles are written with the fewest digits that read back: positionally, with a point, when the
first digit stands between the fifth place behind the point and the sixteenth before it, and
otherwise with a signed exponent.
-/

namespace Bundler.Json

/-! ## Numbers -/

def digitChars (n : Nat) : List Char := Nat.toDigits 10 n

/-- The exponent with its sign. -/
def exponentChars (e : Int) : List Char := (if e < 0 then '-' else '+') :: digitChars e.natAbs

/-- `digits * 10 ^ exponent`, with a point or an exponent in every case. -/
def scaledChars (s : Decimal.Scaled) : List Char :=
  let ds := digitChars s.digits
  /- How many digits stand before the point. -/
  let point : Int := ds.length + s.exponent
  if 0 ≤ s.exponent ∧ point ≤ 16 then ds ++ List.replicate s.exponent.toNat '0' ++ ['.', '0']
  else if 0 < point ∧ point ≤ 16 then ds.take point.toNat ++ '.' :: ds.drop point.toNat
  else if -5 < point ∧ point ≤ 0 then '0' :: '.' :: List.replicate (-point).toNat '0' ++ ds
  else
    let fraction := match ds.drop 1 with
      | [] => []
      | rest => '.' :: rest
    ds.take 1 ++ fraction ++ 'e' :: exponentChars (point - 1)

def Number.chars : Number → List Char
  | .natural n => digitChars n
  | .negative n => '-' :: digitChars n
  | .binary bits =>
    let d := Decimal.Double.ofBits bits
    let s := scaledChars (Decimal.shortest d)
    if d.negative then '-' :: s else s

/-! ## Texts -/

def hexDigit (n : Nat) : Char := "0123456789abcdef".toList.getD n '0'

/-- A character as it stands inside quotes. -/
def escapeChar (c : Char) : List Char :=
  if c = '"' then ['\\', '"']
  else if c = '\\' then ['\\', '\\']
  else if c = '\n' then ['\\', 'n']
  else if c = '\r' then ['\\', 'r']
  else if c = '\t' then ['\\', 't']
  else if c = '\x08' then ['\\', 'b']
  else if c = '\x0c' then ['\\', 'f']
  else if c.toNat < 0x20 then
    ['\\', 'u', '0', '0', hexDigit (c.toNat / 16), hexDigit (c.toNat % 16)]
  else [c]

def quoteChars (s : String) : List Char := '"' :: (s.toList.flatMap escapeChar ++ ['"'])

def quote (s : String) : String := String.ofList (quoteChars s)

/-! ## Values -/

mutual

def compactChars : Json → List Char
  | .null => "null".toList
  | .bool true => "true".toList
  | .bool false => "false".toList
  | .number n => n.chars
  | .text s => quoteChars s
  | .list items => '[' :: compactItems items ++ [']']
  | .object fields => '{' :: compactFields fields ++ ['}']

def compactItems : List Json → List Char
  | [] => []
  | [x] => compactChars x
  | x :: xs => compactChars x ++ ',' :: compactItems xs

def compactFields : List (String × Json) → List Char
  | [] => []
  | [(k, v)] => quoteChars k ++ ':' :: compactChars v
  | (k, v) :: rest => quoteChars k ++ ':' :: compactChars v ++ ',' :: compactFields rest

end

def compact (j : Json) : String := String.ofList (compactChars j)

def newline (indent : Nat) : List Char := '\n' :: List.replicate (2 * indent) ' '

mutual

def spreadChars (indent : Nat) : Json → List Char
  | .list [] => ['[', ']']
  | .list items => '[' :: spreadItems (indent + 1) items ++ newline indent ++ [']']
  | .object [] => ['{', '}']
  | .object fields => '{' :: spreadFields (indent + 1) fields ++ newline indent ++ ['}']
  | .null => compactChars .null
  | .bool b => compactChars (.bool b)
  | .number n => n.chars
  | .text s => quoteChars s

def spreadItems (indent : Nat) : List Json → List Char
  | [] => []
  | [x] => newline indent ++ spreadChars indent x
  | x :: xs => newline indent ++ spreadChars indent x ++ ',' :: spreadItems indent xs

def spreadFields (indent : Nat) : List (String × Json) → List Char
  | [] => []
  | [(k, v)] => newline indent ++ quoteChars k ++ ':' :: ' ' :: spreadChars indent v
  | (k, v) :: rest =>
    newline indent ++ quoteChars k ++ ':' :: ' ' :: spreadChars indent v ++
      ',' :: spreadFields indent rest

end

def spread (j : Json) : String := String.ofList (spreadChars 0 j)

end Bundler.Json
