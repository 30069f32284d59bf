import Bundler.Json.Reader

/-!
# Reading JSON for a purpose

Readers for values of a known shape: flags, texts, bounded numbers, lists, tables, choices and
records. What has another shape is refused with the kind that was found and the kind that was
expected; a record may also be written as the list of its values in order.
-/

namespace Bundler.Json.Schema

open Reader

/-- Refuses what is ahead, naming its kind. A text or a number is read before it is refused. -/
def mismatch {α : Type} (expected : String) : Reader α := settle do
  match ← peek with
  | some 'n' => do advance; word "ull".toList; refuse (.wrongKind .null expected)
  | some 't' => do advance; word "rue".toList; refuse (.wrongKind (.bool true) expected)
  | some 'f' => do advance; word "alse".toList; refuse (.wrongKind (.bool false) expected)
  | some '-' => do advance; refuse (.wrongKind (.number (← Reader.number true)) expected)
  | some '"' => do advance; refuse (.wrongKind (.text (← Reader.text)) expected)
  | some '[' => refuse (.wrongKind .list expected)
  | some '{' => refuse (.wrongKind .object expected)
  | some c =>
    if c.isDigit then refuse (.wrongKind (.number (← Reader.number false)) expected)
    else failAhead .noValue
  | none => failAhead .noValue

/-- The first character of the value that has to follow. -/
def head : Reader Char := do
  match ← peekToken with
  | some c => return c
  | none => failAhead .endInValue

def flag : Reader Bool := do
  match ← head with
  | 't' => do advance; word "rue".toList; return true
  | 'f' => do advance; word "alse".toList; return false
  | _ => mismatch "a boolean"

def textAs (expected : String) : Reader String := do
  if (← head) = '"' then do advance; Reader.text else mismatch expected

def string : Reader String := textAs "a string"

/-- An integer from 0 to 2^64 - 1; `expected` names the type in a message. -/
def whole (expected : String) : Reader Nat := settle do
  let c ← head
  if c = '-' ∨ c.isDigit then
    if c = '-' then advance
    match ← Reader.number (c = '-') with
    | .natural n => return n
    | .negative n => refuse (.wrongValue (.number (.negative n)) expected)
    | .binary bits => refuse (.wrongKind (.number (.binary bits)) expected)
  else mismatch expected

/-- `null` stands for nothing. -/
def optional {α : Type} (r : Reader α) : Reader (Option α) := do
  match ← peekToken with
  | some 'n' => do advance; word "ull".toList; return none
  | _ => return some (← r)

def list {α : Type} (item : Reader α) : Reader (List α) := settle do
  if (← head) = '[' then do
    advance
    andFinally (do items item (← bound) true []) closeList
  else mismatch "a sequence"

def table {α : Type} (v : Reader α) : Reader (Table String α) := settle do
  if (← head) = '{' then do
    advance
    return Table.ofList (← andFinally (do fields v (← bound) true []) closeObject)
  else mismatch "a map"

/-- The choice of a given name; `names` are the ones a message lists. -/
def chosen {α : Type} (variants : List (String × α)) (names : List String) (given : String) :
    Reader α :=
  match variants.find? (·.1 = given) with
  | some v => return v.2
  | none => refuse (.unknownChoice given names)

/-- One of some named values, written as its name or as an object with that name for a key. -/
def choice {α : Type} (variants : List (String × α)) (names : List String) : Reader α := do
  match ← peekToken with
  | none => failAhead .endInValue
  | some '"' => settle do
    advance
    chosen variants names (← Reader.text)
  | some '{' => do
    advance
    match ← peekToken with
    | some '"' => pure ()
    | some '}' => failAhead .noValue
    | some _ => failAhead .keyNotText
    | none => failAhead .endInObject
    let a ← settle do advance; chosen variants names (← Reader.text)
    colon
    if (← head) = 'n' then do advance; word "ull".toList else mismatch "unit"
    match ← peekToken with
    | some '}' => do advance; return a
    | some _ => fail .noValue
    | none => fail .endInObject
  | some _ => failAhead .noValue

/-! ## Values that are passed over -/

def skipDigits : Reader Nat := do return (← digits).length

def skipExponent : Reader Unit := do
  advance
  match ← peek with
  | some '+' | some '-' => advance
  | _ => pure ()
  match ← take with
  | some c => if c.isDigit then do let _ ← skipDigits; return () else fail .badNumber
  | none => fail .badNumber

def skipNumber : Reader Unit := do
  match ← take with
  | some '0' =>
    match ← peek with
    | some c => if c.isDigit then failAhead .badNumber
    | none => pure ()
  | some c => if c.isDigit then do let _ ← skipDigits else fail .badNumber
  | none => fail .badNumber
  match ← peek with
  | some '.' => do
    advance
    if (← skipDigits) = 0 then failAhead .badNumber
    match ← peek with
    | some 'e' | some 'E' => skipExponent
    | _ => pure ()
  | some 'e' | some 'E' => skipExponent
  | _ => pure ()

/-- Passes a text behind its opening quote; character numbers are not looked at. -/
def skipText : Nat → Reader Unit
  | 0 => return ()
  | fuel + 1 => do
    match ← peek with
    | none => fail .endInString
    | some '"' => advance
    | some '\\' => do
      advance
      match ← take with
      | none => fail .endInString
      | some 'u' => do let _ ← fourHex; skipText fuel
      | some c => if "\"\\/bfnrt".toList.contains c then skipText fuel else fail .badEscape
    | some c => if c.toNat < 0x20 then fail .controlCharacter else do advance; skipText fuel

/-- A key and its colon, inside a value that is passed over. -/
def skipKey : Reader Unit := do
  match ← peekToken with
  | some '"' => advance
  | some _ => failAhead .keyNotText
  | none => failAhead .endInObject
  skipText (← bound)
  match ← peekToken with
  | some ':' => advance
  | some _ => failAhead .noColon
  | none => failAhead .endInObject

/-- Passes values and brackets until the brackets that are open, innermost first, are closed.
`due` tells whether a value has to follow at once. -/
def skipOpen : Nat → Bool → List Char → Reader Unit
  | 0, _, _ => return ()
  | fuel + 1, true, openBrackets => do
    match ← peekToken with
    | none => failAhead .endInValue
    | some 'n' => do advance; word "ull".toList; skipOpen fuel false openBrackets
    | some 't' => do advance; word "rue".toList; skipOpen fuel false openBrackets
    | some 'f' => do advance; word "alse".toList; skipOpen fuel false openBrackets
    | some '-' => do advance; skipNumber; skipOpen fuel false openBrackets
    | some '"' => do advance; skipText (← bound); skipOpen fuel false openBrackets
    | some '[' => do
      advance
      match ← peekToken with
      | none => failAhead .endInList
      | some ']' => do advance; skipOpen fuel false openBrackets
      | some _ => skipOpen fuel true ('[' :: openBrackets)
    | some '{' => do
      advance
      match ← peekToken with
      | none => failAhead .endInObject
      | some '}' => do advance; skipOpen fuel false openBrackets
      | some _ => do skipKey; skipOpen fuel true ('{' :: openBrackets)
    | some c =>
      if c.isDigit then do skipNumber; skipOpen fuel false openBrackets else failAhead .noValue
  | _ + 1, false, [] => return ()
  | fuel + 1, false, b :: outer => do
    match ← peekToken with
    | none => failAhead (if b = '[' then .endInList else .endInObject)
    | some c =>
      if c = ',' then do
        advance
        if b = '{' then skipKey
        skipOpen fuel true (b :: outer)
      else if (c = ']' ∧ b = '[') ∨ (c = '}' ∧ b = '{') then do
        advance
        skipOpen fuel false outer
      else failAhead (if b = '[' then .noListSeparator else .noObjectSeparator)

/-- Passes a value of any kind. -/
def skipValue : Reader Unit := do skipOpen (2 * (← bound)) true []

/-! ## Records -/

/-- A field of a record: how its value changes what was read so far, and whether it may be
missing. -/
structure RecordField (σ : Type) where
  name : String
  change : Reader (σ → σ)
  required : Bool

/-- A field that is set with a reader's value. -/
def RecordField.of {α σ : Type} (name : String) (r : Reader α) (set : α → σ → σ)
    (required : Bool) : RecordField σ :=
  ⟨name, do return set (← r), required⟩

section
variable {σ : Type}

/-- The fields as the items of a list, of which `index` were read. -/
def inOrder (what : String) : Nat → List (RecordField σ) → σ → Reader σ
  | _, [], s => return s
  | index, f :: fs, s => do
    if ← moreItems (index = 0) then
      let change ← f.change
      inOrder what (index + 1) fs (change s)
    else if f.required then refuse (.wrongLength index what)
    else inOrder what (index + 1) fs s

/-- The fields by name, in any order. Unknown ones are passed over. -/
def byName (all : List (RecordField σ)) : Nat → Bool → List String → σ → Reader σ
  | 0, _, _, s => return s
  | fuel + 1, isFirst, seen, s => do
    if ← moreFields isFirst then
      let k ← key
      match all.find? (·.name = k) with
      | none => do
        colon
        skipValue
        byName all fuel false seen s
      | some f =>
        if seen.contains k then refuse (.repeatedField k)
        else
          colon
          let change ← f.change
          byName all fuel false (k :: seen) (change s)
    else
      match all.find? fun f => f.required && !seen.contains f.name with
      | some f => refuse (.missingField f.name)
      | none => return s

/-- A record called `name`, read into `start`. -/
def record (name : String) (all : List (RecordField σ)) (start : σ) : Reader σ := settle do
  let what := "struct " ++ name
  match ← head with
  | '[' => do
    advance
    andFinally (inOrder (what ++ " with " ++ toString all.length ++
      (if all.length = 1 then " element" else " elements")) 0 all start) closeList
  | '{' => do
    advance
    andFinally (do byName all (← bound) true [] start) closeObject
  | _ => mismatch what

end

end Bundler.Json.Schema
