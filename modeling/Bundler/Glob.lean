/-!
# Glob patterns

`?` matches any character, `*` any run of characters, `[...]` and `[!...]` one character in or
outside a set, and `**`, which has to be a whole path component, any run of components. Slashes
are matched like other characters.
-/

namespace Bundler.Glob

/-- A part of a character set. -/
inductive Item
  | single (c : Char)
  | range (first last : Char)
deriving DecidableEq

inductive Token
  | char (c : Char)
  | anyChar
  | anyRun
  | anyComponents
  | within (items : List Item)
  | except (items : List Item)
deriving DecidableEq

inductive Fault
  | wildcards
  | componentWildcards
  | range
deriving DecidableEq

/-- Why and where a pattern is refused. -/
structure Failure where
  fault : Fault
  position : Nat
deriving DecidableEq

def Fault.describe : Fault → String
  | .wildcards => "wildcards are either regular `*` or recursive `**`"
  | .componentWildcards => "recursive wildcards must form a single path component"
  | .range => "invalid range pattern"

def Failure.message (f : Failure) : String :=
  "Pattern syntax error near position " ++ toString f.position ++ ": " ++ f.fault.describe

/-- The parts of a set, between its brackets. -/
def items : List Char → List Item
  | a :: '-' :: b :: rest => .range a b :: items rest
  | a :: rest => .single a :: items rest
  | [] => []

/-- The characters up to the next `]`, of which the first `n` may themselves be `]`. -/
def setContent? : Nat → List Char → Option (List Char × List Char)
  | _, [] => none
  | n + 1, c :: cs => (setContent? n cs).map fun p => (c :: p.1, p.2)
  | 0, c :: cs => if c = ']' then some ([], cs) else (setContent? 0 cs).map fun p => (c :: p.1, p.2)

/-- The token of a bracket and what follows it. -/
def set? : List Char → Option (Token × List Char)
  | '!' :: cs => (setContent? 1 cs).map fun p => (.except (items p.1), p.2)
  | cs => (setContent? 1 cs).map fun p => (.within (items p.1), p.2)

/-- Adds a `**`; one that follows another behind some other token counts for nothing. -/
def addComponents (tokens : List Token) : List Token :=
  if 1 < tokens.length ∧ tokens.head? = some .anyComponents then tokens
  else .anyComponents :: tokens

/-- Reads a pattern of which `position` characters, the last of them `before`, gave the tokens
`tokens`, last one first. -/
def tokensFrom : Nat → Nat → Option Char → List Token → List Char → Except Failure (List Token)
  | 0, _, _, tokens, _ => .ok tokens.reverse
  | _, _, _, tokens, [] => .ok tokens.reverse
  | fuel + 1, position, before, tokens, c :: cs =>
    if c = '?' then tokensFrom fuel (position + 1) (some c) (.anyChar :: tokens) cs
    else if c = '*' then
      let stars := 1 + (cs.takeWhile (· = '*')).length
      let rest := cs.dropWhile (· = '*')
      if 2 < stars then .error ⟨.wildcards, position + 2⟩
      else if stars = 1 then tokensFrom fuel (position + 1) (some c) (.anyRun :: tokens) rest
      else if before = none ∨ before = some '/' then
        match rest with
        | [] => .ok (addComponents tokens).reverse
        | '/' :: rest' => tokensFrom fuel (position + 3) (some '/') (addComponents tokens) rest'
        | _ => .error ⟨.componentWildcards, position + 2⟩
      else .error ⟨.componentWildcards, position - 1⟩
    else if c = '[' then
      match set? cs with
      | some (token, rest) =>
        tokensFrom fuel (position + 1 + (cs.length - rest.length)) (some ']') (token :: tokens) rest
      | none => .error ⟨.range, position⟩
    else tokensFrom fuel (position + 1) (some c) (.char c :: tokens) cs

/-- A pattern that was read. -/
structure Pattern where
  tokens : List Token
deriving DecidableEq

def Pattern.parse (s : String) : Except Failure Pattern :=
  (tokensFrom (s.toList.length + 1) 0 none [] s.toList).map (⟨·⟩)

def Item.contains (c : Char) : Item → Bool
  | .single d => c = d
  | .range a b => a ≤ c && c ≤ b

/-- How a match ended: with all of the text, without, or at the end of the text, which no other
way of matching a run can mend. -/
inductive Outcome
  | matched
  | failed
  | exhausted
deriving DecidableEq

/-- Whether a token other than a run accepts a character. -/
def Token.accepts (c : Char) : Token → Bool
  | .char d => c = d
  | .anyChar => true
  | .within items => items.any (·.contains c)
  | .except items => !items.any (·.contains c)
  | _ => false

mutual

/-- Tries `rest` at the text and behind each of its characters; with `components`, only behind
slashes and at the end. -/
def runOutcome (components : Bool) (rest : List Char → Outcome) : List Char → Outcome
  | [] => rest []
  | c :: cs =>
    match rest (c :: cs) with
    | .failed => runBehind components rest c cs
    | o => o

/-- Goes on behind a character that belongs to the run. -/
def runBehind (components : Bool) (rest : List Char → Outcome) (c : Char) : List Char → Outcome
  | [] => rest []
  | d :: ds =>
    if components && c ≠ '/' then runBehind components rest d ds
    else runOutcome components rest (d :: ds)

end

def outcome : List Token → List Char → Outcome
  | [], [] => .matched
  | [], _ :: _ => .failed
  | .anyRun :: rest, cs => runOutcome false (outcome rest) cs
  | .anyComponents :: rest, cs => runOutcome true (outcome rest) cs
  | _ :: _, [] => .exhausted
  | t :: rest, c :: cs => if t.accepts c then outcome rest cs else .failed

def Pattern.accepts (p : Pattern) (s : String) : Bool := outcome p.tokens s.toList = .matched

end Bundler.Glob
