import Bundler.Regex.CharSet

/-!
# Regular expressions

Expressions over characters with repetitions and conditions on the place in the text. `ends`
gives, for a set of places, the places that an expression leads to from there; an expression is
found in a text when it leads from some place to another.
-/

namespace Bundler

/-- A condition on a place between two characters. -/
inductive Regex.Look
  | textStart
  | textEnd
  | lineStart
  | lineEnd
  | wideLineStart
  | wideLineEnd
  | wordBoundary
  | noWordBoundary
  | wordStart
  | wordEnd
  | wordStartHalf
  | wordEndHalf
deriving DecidableEq

inductive Regex
  | empty
  | char (c : Char)
  /-- One character of a set. -/
  | set (s : Regex.CharSet)
  | look (l : Regex.Look)
  | cat (a b : Regex)
  | alt (a b : Regex)
  | repeated (a : Regex) (least : Nat) (most : Option Nat)
  /-- A part that is remembered by its number, and by a name if it has one. -/
  | capture (index : Nat) (name : Option String) (a : Regex)
deriving Inhabited

namespace Regex

/-- `a` as often as a count asks for; no times is nothing, and once is `a` itself. -/
def times (a : Regex) (least : Nat) (most : Option Nat) : Regex :=
  if most = some 0 then .empty
  else if least = 1 ∧ most = some 1 then a
  else .repeated a least most

def isWordChar (c : Char) : Bool := c.isAlphanum || c = '_'

/-- The places of a text, as the number of characters before them. -/
abbrev Places := List Nat

/-- Adds a place to an increasing list. -/
def addPlace (i : Nat) : Places → Places
  | [] => [i]
  | j :: js => if i < j then i :: j :: js else if i = j then j :: js else j :: addPlace i js

def union (a b : Places) : Places := a.foldl (fun s i => addPlace i s) b

def holds (text : Array Char) (i : Nat) (l : Look) : Bool :=
  let before := if i = 0 then none else text[i - 1]?
  let after := text[i]?
  let wordBefore := before.any isWordChar
  let wordAfter := after.any isWordChar
  match l with
  | .textStart => before.isNone
  | .textEnd => after.isNone
  | .lineStart => before.isNone || before = some '\n'
  | .lineEnd => after.isNone || after = some '\n'
  | .wideLineStart =>
    before.isNone || before = some '\n' || (before = some '\r' && after ≠ some '\n')
  | .wideLineEnd =>
    after.isNone || after = some '\r' || (after = some '\n' && before ≠ some '\r')
  | .wordBoundary => wordBefore != wordAfter
  | .noWordBoundary => wordBefore == wordAfter
  | .wordStart => !wordBefore && wordAfter
  | .wordEnd => wordBefore && !wordAfter
  | .wordStartHalf => !wordBefore
  | .wordEndHalf => !wordAfter

/-- Applies `f` until nothing is added, at most `n` times. -/
def closure (f : Places → Places) : Nat → Places → Places
  | 0, s => s
  | n + 1, s =>
    let s' := union (f s) s
    if s' = s then s else closure f n s'

/-- Applies `f` exactly `n` times. -/
def iterate (f : Places → Places) : Nat → Places → Places
  | 0, s => s
  | n + 1, s => iterate f n (f s)

/-- The places that `r` leads to. -/
def ends (text : Array Char) : Regex → Places → Places
  | .empty, s => s
  | .char c, s => s.filterMap fun i => if text[i]? = some c then some (i + 1) else none
  | .set cs, s => s.filterMap fun i => if text[i]?.any cs.contains then some (i + 1) else none
  | .look l, s => s.filter fun i => holds text i l
  | .cat a b, s => ends text b (ends text a s)
  | .alt a b, s => union (ends text a s) (ends text b s)
  | .repeated a least none, s =>
    closure (ends text a) (text.size + 1) (iterate (ends text a) least s)
  | .repeated a least (some most), s =>
    closure (ends text a) (most - least) (iterate (ends text a) least s)
  | .capture _ _ a, s => ends text a s

/-- Whether the expression matches some part of the text. -/
def isFoundIn (r : Regex) (s : String) : Bool :=
  let text := s.toList.toArray
  !(ends text r (List.range (text.size + 1))).isEmpty

end Regex

end Bundler
