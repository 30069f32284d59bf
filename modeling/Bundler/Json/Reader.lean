import Bundler.Json.Failure
import Bundler.Text.Utf8

/-!
# Reading JSON

A reader moves a cursor over bytes. It gives a value or a failure, and in both cases the cursor
where it stopped: a list or object whose content failed still looks for its closing bracket.
-/

namespace Bundler.Json

/-- The bytes ahead, and the line and column behind which they stand. -/
structure Cursor where
  rest : Bytes
  line : Nat
  column : Nat

namespace Cursor

def start (bytes : Bytes) : Cursor := ⟨bytes, 1, 0⟩

def place (c : Cursor) : Nat × Nat := (c.line, c.column)

/-- The cursor one byte further on; at the end it stays. -/
def next (c : Cursor) : Cursor :=
  match c.rest with
  | [] => c
  | b :: rest => if b = 10 then ⟨rest, c.line + 1, 0⟩ else ⟨rest, c.line, c.column + 1⟩

def isGap (b : UInt8) : Bool := b = 32 || b = 10 || b = 9 || b = 13

def isDigit (b : UInt8) : Bool := 48 ≤ b && b ≤ 57

/-- The digits ahead. -/
def digits (c : Cursor) : List Char :=
  (c.rest.takeWhile isDigit).map fun b => Char.ofNat b.toNat

/-- Passes blanks. -/
def skipGaps (c : Cursor) : Cursor :=
  (c.rest.takeWhile isGap).foldl (fun c _ => c.next) c

end Cursor

abbrev Reader (α : Type) := ExceptT Failure (StateM Cursor) α

namespace Reader

/-- The next byte, as the character of its number. -/
def peek : Reader (Option Char) := do
  return (← get).rest.head?.map fun b => Char.ofNat b.toNat

def advance : Reader Unit := modify Cursor.next

/-- Takes the next byte. -/
def take : Reader (Option Char) := do
  let c ← peek
  advance
  return c

/-- Passes blanks and looks at what follows. -/
def peekToken : Reader (Option Char) := do
  modify Cursor.skipGaps
  peek

/-- Fails where the cursor stands. -/
def fail {α : Type} (f : Fault) : Reader α := do throw ⟨f, some (← get).place⟩

/-- Fails at the byte that comes next. -/
def failAhead {α : Type} (f : Fault) : Reader α := do throw ⟨f, some (← get).next.place⟩

/-- Fails without a place. -/
def refuse {α : Type} (f : Fault) : Reader α := throw ⟨f, none⟩

/-- Gives a failure without a place the place where the reader stopped. -/
def settle {α : Type} (r : Reader α) : Reader α := fun c =>
  match r.run c with
  | (.error e, c') => (.error { e with place := e.place.or (some c'.place) }, c')
  | ok => ok

/-- Reads `r` and then `finish`, also when `r` fails; the failure of `r` comes first. -/
def andFinally {α : Type} (r : Reader α) (finish : Reader Unit) : Reader α := fun c =>
  match r.run c with
  | (.ok a, c') =>
    match finish.run c' with
    | (.ok _, c'') => (.ok a, c'')
    | (.error e, c'') => (.error e, c'')
  | (.error e, c') => (.error e, (finish.run c').2)

/-! ## Words and numbers -/

def word : List Char → Reader Unit
  | [] => pure ()
  | w :: ws => do
    match ← take with
    | none => fail .endInValue
    | some c => if c = w then word ws else fail .brokenWord

/-- Takes the digits ahead. -/
def digits : Reader (List Char) := do
  let ds := (← get).digits
  modify fun c => ds.foldl (fun c _ => c.next) c
  return ds

def word64 : Nat := Nat.pow 2 64

/-- Takes digits as long as the number stays below 2^64. Gives the number and how many were
taken. -/
def boundedDigits : Nat → Nat → Reader (Nat × Nat) := fun start _ => do
  let ds := (← get).digits
  let rec go (n taken : Nat) : List Char → Nat × Nat
    | [] => (n, taken)
    | d :: ds =>
      let m := n * 10 + (d.toNat - '0'.toNat)
      if m < word64 then go m (taken + 1) ds else (n, taken)
  let (n, taken) := go start 0 ds
  modify fun c => (List.range taken).foldl (fun c _ => c.next) c
  return (n, taken)

/-- Multiplies or divides by a power of ten, in steps of at most 308. -/
def scaleFloat : Nat → Float → Int → Option Float
  | 0, f, _ => some f
  | fuel + 1, f, e =>
    if e.natAbs ≤ 308 then
      if 0 ≤ e then
        let g := f * Float.ofScientific 1 false e.natAbs
        if g.isInf then none else some g
      else some (f / Float.ofScientific 1 false e.natAbs)
    else if f == 0.0 then some f
    else if 0 ≤ e then none
    else scaleFloat fuel (f / Float.ofScientific 1 false 308) (e + 308)

/-- The double of a significand below 2^64 and a power of ten. -/
def double (negative : Bool) (significand : Nat) (e : Int) : Reader Number := do
  match scaleFloat (e.natAbs / 308 + 2) (UInt64.ofNat significand).toFloat e with
  | none => fail .tooLarge
  | some f => return .binary (if negative then (-f).toBits else f.toBits)

/-- The largest number an exponent may reach while it is read. -/
def exponentLimit : Nat := Nat.pow 2 31 - 1

/-- The exponent behind `e`, which is ahead. -/
def exponent (negative : Bool) (significand : Nat) (e : Int) : Reader Number := do
  advance
  let down ← match ← peek with
    | some '+' => do advance; pure false
    | some '-' => do advance; pure true
    | _ => pure false
  match ← take with
  | none => fail .endInValue
  | some c =>
    if !c.isDigit then fail .badNumber
    else
      let ds := (← get).digits
      /- The digits up to the one that passes the limit. -/
      let rec go (n taken : Nat) : List Char → Nat × Option Nat
        | [] => (taken, some n)
        | d :: ds =>
          let m := n * 10 + (d.toNat - '0'.toNat)
          if exponentLimit < m then (taken + 1, none) else go m (taken + 1) ds
      let (taken, n) := go (c.toNat - '0'.toNat) 0 ds
      modify fun c => (List.range taken).foldl (fun c _ => c.next) c
      match n with
      | some n => double negative significand (if down then e - n else e + n)
      | none =>
        if significand ≠ 0 ∧ !down then fail .tooLarge
        else do
          let _ ← digits
          return .binary (if negative then (-0.0 : Float).toBits else (0.0 : Float).toBits)

/-- The digits behind a point, which is ahead; those that do not fit any more are passed. -/
def fraction (negative : Bool) (significand : Nat) (e : Int) : Reader Number := do
  advance
  let (n, taken) ← boundedDigits significand 0
  let more ← digits
  if taken = 0 ∧ more.isEmpty then
    match ← peek with
    | some _ => failAhead .badNumber
    | none => failAhead .endInValue
  else
    match ← peek with
    | some 'e' | some 'E' => exponent negative n (e - taken)
    | _ => double negative n (e - taken)

/-- What may follow the digits of a whole number that fits. -/
def afterWhole (negative : Bool) (significand : Nat) : Reader Number := do
  match ← peek with
  | some '.' => fraction negative significand 0
  | some 'e' | some 'E' => exponent negative significand 0
  | _ =>
    if !negative then return .natural significand
    else if 0 < significand ∧ significand ≤ Nat.pow 2 63 then return .negative significand
    else return .binary (-(UInt64.ofNat significand).toFloat).toBits

/-- A number behind its sign. -/
def number (negative : Bool) : Reader Number := do
  match ← take with
  | none => fail .endInValue
  | some '0' =>
    match ← peek with
    | some c => if c.isDigit then failAhead .badNumber else afterWhole negative 0
    | none => afterWhole negative 0
  | some c =>
    if !c.isDigit then fail .badNumber
    else
      let (n, _) ← boundedDigits (c.toNat - '0'.toNat) 0
      let more ← digits
      if more.isEmpty then afterWhole negative n
      else
        match ← peek with
        | some '.' => fraction negative n more.length
        | some 'e' | some 'E' => exponent negative n more.length
        | _ => double negative n more.length

/-! ## Texts -/

def hexValue? (c : Char) : Option Nat :=
  if c.isDigit then some (c.toNat - '0'.toNat)
  else if 'a' ≤ c ∧ c ≤ 'f' then some (c.toNat - 'a'.toNat + 10)
  else if 'A' ≤ c ∧ c ≤ 'F' then some (c.toNat - 'A'.toNat + 10)
  else none

/-- Four hexadecimal digits. -/
def fourHex : Reader Nat := do
  let ahead := (← get).rest.take 4
  modify fun c => ahead.foldl (fun c _ => c.next) c
  if ahead.length < 4 then fail .endInString
  else
    match (ahead.map fun b => Char.ofNat b.toNat).mapM hexValue? with
    | some ds => return ds.foldl (fun n d => n * 16 + d) 0
    | none => fail .badEscape

/-- The byte that has to follow inside a text. -/
def peekInText : Reader Char := do
  match ← peek with
  | some c => return c
  | none => fail .endInString

/-- A character by its number; one above U+FFFF is written as two. -/
def numbered : Reader Char := do
  let n ← fourHex
  if 0xDC00 ≤ n ∧ n ≤ 0xDFFF then fail .loneSurrogate
  else if n < 0xD800 ∨ 0xDBFF < n then return Char.ofNat n
  else
    if (← peekInText) ≠ '\\' then do advance; fail .halfSurrogate
    else
      advance
      if (← peekInText) ≠ 'u' then do advance; fail .halfSurrogate
      else
        advance
        let m ← fourHex
        if m < 0xDC00 ∨ 0xDFFF < m then fail .loneSurrogate
        else return Char.ofNat (0x10000 + (n - 0xD800) * 0x400 + (m - 0xDC00))

/-- What a backslash stands for together with what follows it. -/
def escaped : Reader Char := do
  match ← take with
  | none => fail .endInString
  | some '"' => return '"'
  | some '\\' => return '\\'
  | some '/' => return '/'
  | some 'b' => return '\x08'
  | some 'f' => return '\x0c'
  | some 'n' => return '\n'
  | some 'r' => return '\r'
  | some 't' => return '\t'
  | some 'u' => numbered
  | some _ => fail .badEscape

/-- The bytes of a text up to its closing quote, the last one first. -/
def textBytes : Nat → Bytes → Reader Bytes
  | 0, acc => return acc
  | fuel + 1, acc => do
    match (← get).rest with
    | [] => fail .endInString
    | b :: _ =>
      if b = 0x22 then return acc
      else if b = 0x5C then do
        advance
        let c ← escaped
        textBytes fuel ((Text.Utf8.encode (String.singleton c)).reverse ++ acc)
      else if b < 0x20 then do advance; fail .controlCharacter
      else do advance; textBytes fuel (b :: acc)

/-- A text behind its opening quote. If it is not UTF-8, the place is that behind the closing quote,
less the bytes of the text from the first fault on, in which an escape counts as what it stands
for. -/
def text : Reader String := do
  let bytes := (← textBytes ((← get).rest.length + 1) []).reverse
  advance
  match Text.Utf8.decode? bytes with
  | some s => return s
  | none =>
    let c ← get
    throw ⟨.badUnicode, some (c.line, c.column - (bytes.length - Text.Utf8.soundLength bytes))⟩

/-! ## Lists and objects -/

/-- Whether another item follows in a list. -/
def moreItems (isFirst : Bool) : Reader Bool := do
  match ← peekToken with
  | none => failAhead .endInList
  | some ']' => return false
  | some c =>
    if c = ',' ∧ !isFirst then do
      advance
      match ← peekToken with
      | some ']' => failAhead .trailingComma
      | some _ => return true
      | none => failAhead .endInValue
    else if isFirst then return true
    else failAhead .noListSeparator

/-- Whether another field follows in an object; if so, its key is ahead. -/
def moreFields (isFirst : Bool) : Reader Bool := do
  match ← peekToken with
  | none => failAhead .endInObject
  | some '}' => return false
  | some c =>
    if c = ',' ∧ !isFirst then do
      advance
      match ← peekToken with
      | some '"' => return true
      | some '}' => failAhead .trailingComma
      | some _ => failAhead .keyNotText
      | none => failAhead .endInValue
    else if isFirst then
      if c = '"' then return true else failAhead .keyNotText
    else failAhead .noObjectSeparator

def closeList : Reader Unit := do
  match ← peekToken with
  | some ']' => advance
  | some ',' => do
    advance
    match ← peekToken with
    | some ']' => failAhead .trailingComma
    | _ => failAhead .trailingText
  | some _ => failAhead .trailingText
  | none => failAhead .endInList

def closeObject : Reader Unit := do
  match ← peekToken with
  | some '}' => advance
  | some ',' => failAhead .trailingComma
  | some _ => failAhead .trailingText
  | none => failAhead .endInObject

def colon : Reader Unit := do
  match ← peekToken with
  | some ':' => advance
  | some _ => failAhead .noColon
  | none => failAhead .endInObject

/-- The key that is ahead. -/
def key : Reader String := do
  advance
  text

/-- Items up to the closing bracket, at most `fuel` of them. -/
def items {α : Type} (item : Reader α) : Nat → Bool → List α → Reader (List α)
  | 0, _, acc => return acc.reverse
  | fuel + 1, isFirst, acc => do
    if ← moreItems isFirst then
      let a ← item
      items item fuel false (a :: acc)
    else return acc.reverse

/-- Fields up to the closing bracket, at most `fuel` of them. -/
def fields {α : Type} (value : Reader α) : Nat → Bool → List (String × α) →
    Reader (List (String × α))
  | 0, _, acc => return acc.reverse
  | fuel + 1, isFirst, acc => do
    if ← moreFields isFirst then
      let k ← key
      colon
      let v ← value
      fields value fuel false ((k, v) :: acc)
    else return acc.reverse

/-- How many items or fields can follow at most. -/
def bound : Reader Nat := do return (← get).rest.length + 1

/-- A value inside which lists and objects may be nested less than `depth` deep. -/
def value : Nat → Reader Json
  | 0 => failAhead .tooDeep
  | depth + 1 => do
    match ← peekToken with
    | none => failAhead .endInValue
    | some 'n' => do advance; word "ull".toList; return .null
    | some 't' => do advance; word "rue".toList; return .bool true
    | some 'f' => do advance; word "alse".toList; return .bool false
    | some '-' => do advance; return .number (← number true)
    | some '"' => do advance; return .text (← text)
    | some '[' =>
      if depth = 0 then failAhead .tooDeep
      else do
        advance
        return .list (← andFinally (do items (value depth) (← bound) true []) closeList)
    | some '{' =>
      if depth = 0 then failAhead .tooDeep
      else do
        advance
        let fs ← andFinally (do fields (value depth) (← bound) true []) closeObject
        return .object (sortedFields fs)
    | some c => if c.isDigit then return .number (← number false) else failAhead .noValue

/-- Nothing but blanks may follow. -/
def atEnd : Reader Unit := do
  match ← peekToken with
  | some _ => failAhead .trailingText
  | none => return ()

/-- How deep lists and objects may be nested. -/
def depthLimit : Nat := 128

/-- Reads all of `bytes`. -/
def runAll {α : Type} (r : Reader α) (bytes : Bytes) : Except Failure α :=
  ((do let a ← r; atEnd; return a : Reader α).run (Cursor.start bytes)).1

end Reader

/-- The value that `bytes` denote. -/
def parse (bytes : Bytes) : Except Failure Json :=
  Reader.runAll (Reader.value Reader.depthLimit) bytes

end Bundler.Json
