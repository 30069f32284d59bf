import Bundler.Regex.Size

/-!
# Reading regular expressions

The usual notation, over ASCII classes: groups, alternatives, repetitions, character sets, escapes
and flags. Look-around, references to groups and classes of the Unicode standard are refused.
-/

namespace Bundler.Regex

inductive Fault
  | nesting
  | repeatedName
  | unclosedGroup
  | unclosedQuestion
  | unopenedGroup
  | lookAround
  | emptyFlags
  | missingName
  | badName
  | unclosedName
  | emptyName
  | unknownFlag
  | repeatedNegation
  | repeatedFlag
  | endInFlags
  | danglingNegation
  | noDigits
  | badDecimal
  | hexBraceDigit
  | hexBraceEnd
  | hexBraceEmpty
  | hexBraceValue
  | hexFixedEnd
  | hexFixedDigit
  | hexFixedValue
  | hexEnd
  | endInEscape
  | backReference
  | unicodeClass
  | unknownEscape
  | nothingToRepeat
  | nothingToCount
  | unclosedCount
  | unclosedLeast
  | unclosedComma
  | unclosedMost
  | badCount
  | badCountRange
  | unclosedAfterItem
  | badRangeItem
  | badSetItem
  | unclosedAfterDash
  | unclosedAfterNegation
  | unclosedAfterBracket
  | badRange
  | unclosedSet
  | nestedSet
  | intersection
  | difference
  | symmetricDifference
  | unclosedBoundary
  | unknownBoundary
  | endInBoundary
  | tooLarge
deriving DecidableEq

def Fault.message : Fault → String
  | .nesting => "pattern has too much nesting"
  | .repeatedName => "duplicate capture group name"
  | .unclosedGroup => "found open group without closing ')'"
  | .unclosedQuestion => "expected closing ')', but got end of pattern"
  | .unopenedGroup => "found closing ')' without matching '('"
  | .lookAround => "look-around is not supported"
  | .emptyFlags => "empty flag directive '(?)' is not allowed"
  | .missingName => "expected capture group name, but got end of pattern"
  | .badName => "invalid group name"
  | .unclosedName => "expected end of capture group name, but got end of pattern"
  | .emptyName => "empty capture group names are not allowed"
  | .unknownFlag => "unrecognized inline flag"
  | .repeatedNegation => "inline flag negation cannot be repeated"
  | .repeatedFlag => "duplicate inline flag is not allowed"
  | .endInFlags => "expected ':' or ')' to end inline flags, but got end of pattern"
  | .danglingNegation => "inline flags cannot end with negation directive"
  | .noDigits => "expected decimal number, but found no digits"
  | .badDecimal => "got invalid decimal number"
  | .hexBraceDigit => "expected hexadecimal number in braces, but got non-hex digit"
  | .hexBraceEnd => "expected hexadecimal number, but saw end of pattern before closing brace"
  | .hexBraceEmpty => "expected hexadecimal number in braces, but got no digits"
  | .hexBraceValue => "got invalid hexadecimal number in braces"
  | .hexFixedEnd => "expected fixed length hexadecimal number, but saw end of pattern first"
  | .hexFixedDigit => "expected fixed length hexadecimal number, but got non-hex digit"
  | .hexFixedValue => "got invalid fixed length hexadecimal number"
  | .hexEnd => "expected hexadecimal number, but saw end of pattern first"
  | .endInEscape => "saw start of escape sequence, but saw end of pattern before it finished"
  | .backReference => "backreferences are not supported"
  | .unicodeClass => "Unicode character classes are not supported"
  | .unknownEscape => "unrecognized escape sequence"
  | .nothingToRepeat => "uncounted repetition operator must be applied to a sub-expression"
  | .nothingToCount => "counted repetition operator must be applied to a sub-expression"
  | .unclosedCount => "found unclosed counted repetition operator"
  | .unclosedLeast => "found incomplete and unclosed counted repetition operator"
  | .unclosedComma => "found counted repetition operator with a comma that is unclosed"
  | .unclosedMost => "found counted repetition with min and max that is unclosed"
  | .badCount => "expected closing brace for counted repetition, but got something else"
  | .badCountRange => "found counted repetition with a min bigger than its max"
  | .unclosedAfterItem => "non-empty character class has no closing bracket"
  | .badRangeItem => "character class ranges must start and end with a single character"
  | .badSetItem => "invalid escape sequence in character class"
  | .unclosedAfterDash => "non-empty character class has no closing bracket after dash"
  | .unclosedAfterNegation => "negated character class has no closing bracket"
  | .unclosedAfterBracket => "character class begins with literal ']' but has no closing bracket"
  | .badRange => "invalid range in character class"
  | .unclosedSet => "found unclosed character class"
  | .nestedSet => "nested character classes are not supported"
  | .intersection => "character class intersection is not supported"
  | .difference => "character class difference is not supported"
  | .symmetricDifference => "character class symmetric difference is not supported"
  | .unclosedBoundary =>
    "special word boundary assertion is unclosed or has an invalid character"
  | .unknownBoundary => "special word boundary assertion is unrecognized"
  | .endInBoundary => "found start of special word boundary or repetition without an end"
  | .tooLarge => "compiled regex exceeded size limit"

structure Flags where
  fold : Bool := false
  multiLine : Bool := false
  dotAll : Bool := false
  swapGreed : Bool := false
  wideLines : Bool := false
  verbose : Bool := false

structure ReaderState where
  rest : List Char
  flags : Flags := {}
  /-- How many parts to remember were begun. -/
  groups : Nat := 0
  groupNames : List String := []

abbrev Reader (α : Type) := StateT ReaderState (Except Fault) α

namespace Reader

def peek : Reader (Option Char) := do return (← get).rest.head?

def advance : Reader Unit := modify fun s => { s with rest := s.rest.tail }

/-- Goes back to an earlier state. -/
def restore (s : ReaderState) : Reader Unit := modify fun _ => s

def flags : Reader Flags := do return (← get).flags

def setFlags (f : Flags) : Reader Unit := modify fun s => { s with flags := f }

/-- Blanks and comments that a verbose pattern may hold. -/
def dropSpace : Nat → List Char → List Char
  | 0, cs => cs
  | fuel + 1, cs =>
    match cs with
    | '#' :: rest => dropSpace fuel ((rest.dropWhile (· ≠ '\n')).drop 1)
    | c :: rest => if Text.isBlank c then dropSpace fuel rest else c :: rest
    | [] => []

def skipSpace : Reader Unit := do
  if (← flags).verbose then
    modify fun s => { s with rest := dropSpace (s.rest.length + 1) s.rest }

/-- The next character, behind what a verbose pattern may hold. -/
def peekItem : Reader (Option Char) := do
  skipSpace
  peek

/-- The next character; at the end of the pattern, `f`. -/
def demand (f : Fault) : Reader Char := do
  match ← peekItem with
  | some c => return c
  | none => throw f

/-- Passes `s` if it is ahead. -/
def accept (s : String) : Reader Bool := do
  match s.toList.isPrefixOf? (← get).rest with
  | some rest => do modify fun st => { st with rest := rest }; return true
  | none => return false

/-- A character; of a letter, both cases if case is not told apart. -/
def single (c : Char) : Reader Regex := do
  if (← flags).fold && c.isAlpha then return .set (CharSet.fold [⟨c, c⟩]) else return .char c

/-! ## Escapes -/

/-- The character of a number, if it is one. -/
def charOf? (n : Nat) : Option Char := if n.isValidChar then some (Char.ofNat n) else none

def hexValue? (c : Char) : Option Nat :=
  if c.isDigit then some (c.toNat - '0'.toNat)
  else if 'a' ≤ c ∧ c ≤ 'f' then some (c.toNat - 'a'.toNat + 10)
  else if 'A' ≤ c ∧ c ≤ 'F' then some (c.toNat - 'A'.toNat + 10)
  else none

def hexDigits (endFault digitFault : Fault) : Nat → Nat → Reader Nat
  | 0, n => return n
  | k + 1, n => do
    let c ← demand endFault
    match hexValue? c with
    | some d => do advance; hexDigits endFault digitFault k (n * 16 + d)
    | none => throw digitFault

/-- The digits of a number in braces, up to the closing one. -/
def bracedHex : Nat → Nat → Nat → Reader Nat
  | 0, _, n => return n
  | fuel + 1, count, n => do
    let c ← demand .hexBraceEnd
    if c = '}' then do
      advance
      if count = 0 then throw .hexBraceEmpty
      return n
    else
      match hexValue? c with
      | some d => do advance; bracedHex fuel (count + 1) (n * 16 + d)
      | none => throw .hexBraceDigit

/-- A character by its number, behind the letter that tells how many digits it has. -/
def hexChar (kind : Char) : Reader Char := do
  let c ← demand .hexEnd
  if c = '\x7b' then do
    advance
    match charOf? (← bracedHex ((← get).rest.length + 1) 0 0) with
    | some c => return c
    | none => throw .hexBraceValue
  else
    let count := if kind = 'x' then 2 else if kind = 'u' then 4 else 8
    match charOf? (← hexDigits .hexFixedEnd .hexFixedDigit count 0) with
    | some c => return c
    | none => throw .hexFixedValue

/-- The name of a special word boundary, in braces. -/
def boundaryName : Nat → List Char → Reader (List Char)
  | 0, acc => return acc.reverse
  | fuel + 1, acc => do
    match ← peekItem with
    | none => throw .unclosedBoundary
    | some c =>
      if c.isAlpha || c = '-' then do advance; boundaryName fuel (c :: acc)
      else if c = '}' then do advance; return acc.reverse
      else throw .unclosedBoundary

/-- A word boundary behind its letter. A brace that begins a count is left alone. -/
def boundary : Reader Look := do
  if (← peek) ≠ some '\x7b' then return .wordBoundary
  let before ← get
  advance
  match ← peekItem with
  | none => throw .endInBoundary
  | some c =>
    if !(c.isAlpha || c = '-') then do restore before; return .wordBoundary
    else
      match String.ofList (← boundaryName ((← get).rest.length + 1) []) with
      | "start" => return .wordStart
      | "end" => return .wordEnd
      | "start-half" => return .wordStartHalf
      | "end-half" => return .wordEndHalf
      | _ => throw .unknownBoundary

/-- What an escape stands for; the backslash is ahead. -/
def escape : Reader Regex := do
  advance
  match ← peek with
  | none => throw .endInEscape
  | some c =>
    if c.isDigit then throw .backReference
    else if c = 'p' ∨ c = 'P' then throw .unicodeClass
    else
      advance
      match c with
      | 'x' | 'u' | 'U' => single (← hexChar c)
      | 'd' => return .set digitSet
      | 'D' => return .set digitSet.complement
      | 's' => return .set spaceSet
      | 'S' => return .set spaceSet.complement
      | 'w' => return .set wordSet
      | 'W' => return .set wordSet.complement
      | 'a' => return .char '\x07'
      | 'f' => return .char '\x0c'
      | 't' => return .char '\t'
      | 'n' => return .char '\n'
      | 'r' => return .char '\r'
      | 'v' => return .char '\x0b'
      | 'A' => return .look .textStart
      | 'z' => return .look .textEnd
      | 'b' => return .look (← boundary)
      | 'B' => return .look .noWordBoundary
      | '<' => return .look .wordStart
      | '>' => return .look .wordEnd
      | _ => if c.toNat < 0x80 && !c.isAlpha then return .char c else throw .unknownEscape

/-! ## Sets -/

def setItem : Reader Regex := do
  match ← peek with
  | some '\\' => escape
  | some c => do advance; return .char c
  | none => throw .unclosedSet

/-- What an item adds to a set. -/
def itemRanges : Regex → Reader CharSet
  | .char c => return [⟨c, c⟩]
  | .set s => return s
  | _ => throw .badSetItem

/-- An item as an end of a range. -/
def itemChar : Regex → Reader Char
  | .char c => return c
  | _ => throw .badRangeItem

/-- The next character but one. In a verbose pattern, blanks and one `#` with the blanks behind it
are looked past if something follows them. -/
def peekSecond : Reader (Option Char) := do
  let behind := (← get).rest.drop 1
  if !(← flags).verbose then return behind.head?
  let shown := match behind.dropWhile Text.isBlank with
    | '#' :: rest => rest.dropWhile Text.isBlank
    | rest => rest
  return shown.head?.or behind.head?

def setRange : Reader CharSet := do
  let a ← setItem
  let c ← demand .unclosedAfterItem
  let second ← peekSecond
  if c ≠ '-' ∨ second = some ']' ∨ second = some '-' then itemRanges a
  else
    advance
    let _ ← demand .unclosedAfterDash
    let b ← setItem
    let x ← itemChar a
    let y ← itemChar b
    if y < x then throw .badRange
    return [⟨x, y⟩]

/-- A set by its name, if one is ahead. -/
def namedSet : Reader (Option CharSet) := do
  let before ← get
  if !(← accept "[:") then return none
  let negated ← accept "^"
  let name := (← get).rest.takeWhile Char.isAlpha
  modify fun s => { s with rest := s.rest.drop name.length }
  match namedSets.find? (·.1.toList = name), ← accept ":]" with
  | some s, true => return some (if negated then s.2.complement else s.2)
  | _, _ => do restore before; return none

def setBody : Nat → CharSet → Reader CharSet
  | 0, acc => return acc
  | fuel + 1, acc => do
    match ← demand .unclosedSet with
    | '[' =>
      match ← namedSet with
      | some rs => setBody fuel (rs ++ acc)
      | none => throw .nestedSet
    | ']' => do advance; return acc
    | c => do
      let twice := (← get).rest.drop 1 |>.head?.any (· = c)
      if twice && c = '&' then throw .intersection
      if twice && c = '-' then throw .difference
      if twice && c = '~' then throw .symmetricDifference
      let rs ← setRange
      setBody fuel (rs ++ acc)

/-- Dashes at the front of a set. -/
def leadingDashes : Nat → CharSet → Reader CharSet
  | 0, acc => return acc
  | fuel + 1, acc => do
    if (← peek) = some '-' then do
      advance
      let _ ← demand .unclosedAfterDash
      leadingDashes fuel (⟨'-', '-'⟩ :: acc)
    else return acc

/-- A set; its opening bracket is ahead. -/
def charSet : Reader Regex := do
  advance
  let c ← demand .unclosedSet
  let negated := c = '^'
  if negated then do
    advance
    let _ ← demand .unclosedAfterNegation
  let fuel := (← get).rest.length + 1
  let dashes ← leadingDashes fuel []
  let first ← do
    if dashes.isEmpty && (← peek) = some ']' then do
      advance
      let _ ← demand .unclosedAfterBracket
      pure [⟨']', ']'⟩]
    else pure dashes
  let s := CharSet.ofRanges (← setBody fuel first)
  let s := if (← flags).fold then s.fold else s
  return .set (if negated then s.complement else s)

/-! ## Groups and repetitions -/

def dropBlanks : Reader Unit := modify fun s => { s with rest := s.rest.dropWhile Text.isBlank }

/-- The digits that are ahead; a verbose pattern may hold something between them. -/
def decimalDigits : Nat → List Char → Reader (List Char)
  | 0, acc => return acc.reverse
  | fuel + 1, acc => do
    match ← peek with
    | some c =>
      if c.isDigit then do advance; skipSpace; decimalDigits fuel (c :: acc) else return acc.reverse
    | none => return acc.reverse

/-- A number with blanks around it. -/
def decimal : Reader Nat := do
  dropBlanks
  let ds ← decimalDigits ((← get).rest.length + 1) []
  dropBlanks
  skipSpace
  if ds.isEmpty then throw .noDigits
  let n := ds.foldl (fun n c => n * 10 + (c.toNat - '0'.toNat)) 0
  if Nat.pow 2 32 ≤ n then throw .badDecimal
  return n

/-- Passes the mark that makes a repetition take little. -/
def reluctance : Reader Unit := do
  if (← peek) = some '?' then advance

/-- The least and the largest count; the opening brace is ahead. -/
def counts : Reader (Nat × Option Nat) := do
  advance
  let _ ← demand .unclosedCount
  let least ← decimal
  let c ← demand .unclosedLeast
  let most ← do
    if c = ',' then do
      advance
      let d ← demand .unclosedComma
      let most ← if d = '}' then pure none else some <$> decimal
      let _ ← demand .unclosedMost
      pure most
    else pure (some least)
  if (← peek) ≠ some '}' then throw .badCount
  advance
  skipSpace
  reluctance
  match most with
  | some m => if m < least then throw .badCountRange
  | none => pure ()
  return (least, most)

def Flags.set (f : Flags) (c : Char) (on : Bool) : Option Flags :=
  match c with
  | 'i' => some { f with fold := on }
  | 'm' => some { f with multiLine := on }
  | 's' => some { f with dotAll := on }
  | 'U' => some { f with swapGreed := on }
  | 'R' => some { f with wideLines := on }
  | 'x' => some { f with verbose := on }
  -- Classes are those of ASCII in any case.
  | 'u' => some f
  | _ => none

/-- The flags up to `:` or `)`, and how many characters they take. -/
def flagList : Nat → Bool → List Char → Flags → Reader (Flags × List Char)
  | 0, _, seen, f => return (f, seen)
  | fuel + 1, negated, seen, f => do
    match ← peek with
    | none => throw .endInFlags
    | some c =>
      if c = ':' ∨ c = ')' then
        if seen.head? = some '-' then throw .danglingNegation
        return (f, seen)
      else if c = '-' then
        if negated then throw .repeatedNegation
        advance
        flagList fuel true (c :: seen) f
      else if seen.contains c then throw .repeatedFlag
      else
        match Flags.set f c (!negated) with
        | none => throw .unknownFlag
        | some f' => do advance; flagList fuel negated (c :: seen) f'

/-- A group's name up to `>`. -/
def groupName : Reader String := do
  let name := (← get).rest.takeWhile (· ≠ '>')
  if (← get).rest.isEmpty then throw .missingName
  let valid := match name with
    | [] => true
    | c :: cs => (Text.isLetter c || c = '_') &&
      cs.all fun c => Text.isLetterOrNumeral c || "_.[]".toList.contains c
  if !valid then throw .badName
  if name.length = (← get).rest.length then throw .unclosedName
  if name.isEmpty then throw .emptyName
  let name := String.ofList name
  if (← get).groupNames.contains name then throw .repeatedName
  modify fun s =>
    { s with rest := s.rest.drop (name.length + 1), groupNames := name :: s.groupNames }
  return name

/-- The number of a part to remember that begins here. -/
def nextIndex : Reader Nat := do
  modify fun s => { s with groups := s.groups + 1 }
  return (← get).groups

def dot : Reader Regex := do
  let f ← flags
  let excluded : CharSet :=
    if f.dotAll then [] else if f.wideLines then [⟨'\n', '\n'⟩, ⟨'\r', '\r'⟩] else [⟨'\n', '\n'⟩]
  return .set excluded.complement

def anchor (atStart : Bool) : Reader Regex := do
  let f ← flags
  return .look
    (if !f.multiLine then (if atStart then .textStart else .textEnd)
     else if f.wideLines then (if atStart then .wideLineStart else .wideLineEnd)
     else (if atStart then .lineStart else .lineEnd))

/-- A character, an escape or an anchor. -/
def primitive (c : Char) : Reader Regex := do
  match c with
  | '\\' => escape
  | '.' => do advance; dot
  | '^' => do advance; anchor true
  | '$' => do advance; anchor false
  | c => do advance; single c

/-- The expression of some parts, the last one first. -/
def catAll (parts : List Regex) : Regex := parts.foldl (fun r a => .cat a r) .empty

mutual

/-- Alternatives up to a closing parenthesis or the end. -/
def alternatives : Nat → Nat → List Regex → Reader Regex
  | 0, _, _ => throw .nesting
  | fuel + 1, depth, parts => do
    if depthLimit < depth then throw .nesting
    match ← peekItem with
    | none => return catAll parts
    | some '(' => do
      let flagsBefore ← flags
      match ← group fuel depth with
      | some r => do
        setFlags flagsBefore
        if (← peekItem) ≠ some ')' then throw .unclosedGroup
        advance
        alternatives fuel depth (r :: parts)
      | none => do
        advance
        alternatives fuel depth parts
    | some ')' => if depth = 0 then throw .unopenedGroup else return catAll parts
    | some '|' => do
      advance
      return .alt (catAll parts) (← alternatives fuel depth [])
    | some '[' => do
      let r ← charSet
      alternatives fuel depth (r :: parts)
    | some '\x7b' =>
      match parts with
      | [] => throw .nothingToCount
      | p :: ps => do
        let (least, most) ← counts
        alternatives fuel depth (p.times least most :: ps)
    | some c =>
      if c = '?' ∨ c = '*' ∨ c = '+' then
        match parts with
        | [] => throw .nothingToRepeat
        | p :: ps => do
          advance
          reluctance
          alternatives fuel depth
            (p.times (if c = '+' then 1 else 0) (if c = '?' then some 1 else none) :: ps)
      else do
        let r ← primitive c
        alternatives fuel depth (r :: parts)

/-- A group, whose opening parenthesis is ahead, up to its closing one; or a list of flags. -/
def group : Nat → Nat → Reader (Option Regex)
  | 0, _ => throw .nesting
  | fuel + 1, depth => do
    advance
    skipSpace
    for s in ["?=", "?!", "?<=", "?<!"] do
      if ← accept s then throw .lookAround
    if (← accept "?P<") || (← accept "?<") then do
      let index ← nextIndex
      let name ← groupName
      return some (.capture index (some name) (← alternatives fuel (depth + 1) []))
    else if ← accept "?" then do
      if (← peek).isNone then throw .unclosedQuestion
      let (f, seen) ← flagList ((← get).rest.length + 1) false [] (← flags)
      setFlags f
      if (← peek) = some ')' then do
        if seen.isEmpty then throw .emptyFlags
        return none
      else do
        advance
        some <$> alternatives fuel (depth + 1) []
    else do
      let index ← nextIndex
      return some (.capture index none (← alternatives fuel (depth + 1) []))

end

end Reader

/-- The expression that a pattern denotes. -/
def parse (pattern : String) : Except Fault Regex := do
  let cs := pattern.toList
  let (r, _) ← (Reader.alternatives (2 * cs.length + 2) 0 []).run { rest := cs }
  if depthLimit < r.depth then throw .nesting
  if sizeLimit < r.size then throw .tooLarge
  return r

end Bundler.Regex
