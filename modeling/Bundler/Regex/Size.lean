import Bundler.Regex.Basic
import Bundler.Text.Utf8

/-!
# The size of regular expressions

Expressions may be nested up to a depth, and a machine for them may take up some memory. A
sequence stands as a chain of parts that ends in the empty expression, and counts as one level;
so do the branches of an alternative.
-/

namespace Bundler.Regex

/-- How deep expressions may be nested. -/
def depthLimit : Nat := 50

/-- The place of an expression in a sequence or among alternatives. -/
inductive Part
  | whole
  /-- The parts of a sequence behind the first one. -/
  | sequence
  /-- The branches of an alternative behind the first one. -/
  | branches

/-- How deep an expression is nested; for the later parts of a sequence or of an alternative, the
depth of the deepest of them. -/
def depthAs : Part → Regex → Nat
  | .sequence, .empty => 0
  | .sequence, .cat a b => max (depthAs .whole a) (depthAs .sequence b)
  | .branches, .alt a b => max (depthAs .whole a) (depthAs .branches b)
  | _, .empty => 0
  | _, .char _ => 0
  | _, .set _ => 0
  | _, .look _ => 0
  | _, .cat a .empty => depthAs .whole a
  | _, .cat a b => 1 + max (depthAs .whole a) (depthAs .sequence b)
  | _, .alt a b => 1 + max (depthAs .whole a) (depthAs .branches b)
  | _, .repeated a _ _ => 1 + depthAs .whole a
  | _, .capture _ _ a => 1 + depthAs .whole a

def depth (r : Regex) : Nat := depthAs .whole r

/-! ## Memory -/

/-- How many bytes a machine may take up. -/
def sizeLimit : Nat := 10 * 1024 * 1024

/-- The bytes of a state. -/
def stateSize : Nat := 32

/-- The bytes of each way to go on from a state that has several. -/
def branchSize : Nat := 4

/-- The bytes of a state with two ways to go on. -/
def forkSize : Nat := stateSize + 2 * branchSize

/-- The bytes of each range of a set. -/
def rangeSize : Nat := 8

/-- Whether an expression can be passed without a character, if the place allows it. -/
def canBeEmpty : Regex → Bool
  | .empty => true
  | .char _ => false
  | .set _ => false
  | .look _ => true
  | .cat a b => canBeEmpty a && canBeEmpty b
  | .alt a b => canBeEmpty a || canBeEmpty b
  | .repeated a least _ => least = 0 || canBeEmpty a
  | .capture _ _ a => canBeEmpty a

/-- The bytes of a repetition of something that takes up `size`. What may be left out is followed
by a state where the ways meet. -/
def repeatedSize (size : Nat) (canBeEmpty : Bool) : Nat → Option Nat → Nat
  | 0, none => if canBeEmpty then size + 2 * forkSize + stateSize else size + forkSize
  | 0, some 1 => size + forkSize + stateSize
  | 0, some most => most * (size + forkSize) + 2 * stateSize
  | least, none => least * size + forkSize
  | least, some most =>
    if least = most then least * size
    else least * size + (most - least) * (size + forkSize) + stateSize

/-- The bytes of the states for an expression; an alternative has one state where its branches
begin and one where they meet. -/
def statesSizeAs : Part → Regex → Nat
  | .sequence, .empty => 0
  | .sequence, .cat a b => statesSizeAs .whole a + statesSizeAs .sequence b
  | .branches, .alt a b => branchSize + statesSizeAs .whole a + statesSizeAs .branches b
  | .branches, .cat a .empty => branchSize + statesSizeAs .whole a
  | .branches, .cat a b => branchSize + statesSizeAs .whole a + statesSizeAs .sequence b
  | .branches, .empty => branchSize + stateSize
  | _, .empty => stateSize
  | _, .char _ => stateSize
  | _, .set s => stateSize + rangeSize * s.length
  | _, .look _ => stateSize
  | _, .cat a .empty => statesSizeAs .whole a
  | _, .cat a b => statesSizeAs .whole a + statesSizeAs .sequence b
  | _, .alt a b =>
    2 * stateSize + branchSize + statesSizeAs .whole a + statesSizeAs .branches b
  | _, .repeated a least most => repeatedSize (statesSizeAs .whole a) (canBeEmpty a) least most
  | _, .capture _ _ a => statesSizeAs .whole a + 2 * stateSize

/-- The number of the last part that is remembered; the whole has the number 0. -/
def lastIndex : Regex → Nat
  | .cat a b | .alt a b => max (lastIndex a) (lastIndex b)
  | .repeated a _ _ => lastIndex a
  | .capture index _ a => max index (lastIndex a)
  | _ => 0

/-- The bytes of the names of parts, each with its number. -/
def namesSize : Regex → Nat
  | .cat a b | .alt a b => namesSize a + namesSize b
  | .repeated a _ _ => namesSize a
  | .capture _ name a => (name.map fun n => Text.byteLength n + 4).getD 0 + namesSize a
  | _ => 0

/-- The bytes of a machine for an expression: its states with those around the whole, a place for
each part that is remembered, and the names. -/
def size (r : Regex) : Nat :=
  statesSizeAs .whole r + 3 * stateSize + 16 * (lastIndex r + 1) + namesSize r

end Bundler.Regex
