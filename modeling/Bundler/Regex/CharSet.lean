import Bundler.Text.Unicode

/-!
# Sets of characters

A set is a list of ranges. `CharSet.ofRanges` brings ranges into order and joins those that touch;
on such a list `CharSet.complement` reads off what lies between.
-/

namespace Bundler.Regex

/-- The characters from `first` to `last`. -/
structure Range where
  first : Char
  last : Char
deriving DecidableEq

/-- The characters that lie in one of some ranges. -/
abbrev CharSet := List Range

def lastChar : Char := Char.ofNat 0x10FFFF

/-- The character behind `c`; none stands between U+D7FF and U+E000. -/
def charAfter (c : Char) : Char := if c = '\uD7FF' then '\uE000' else Char.ofNat (c.toNat + 1)

def charBefore (c : Char) : Char := if c = '\uE000' then '\uD7FF' else Char.ofNat (c.toNat - 1)

namespace Range

def contains (r : Range) (c : Char) : Bool := r.first ≤ c && c ≤ r.last

/-- Whether `s`, which does not begin before `r`, overlaps `r` or follows it at once. -/
def reaches (r s : Range) : Bool := s.first.toNat ≤ r.last.toNat + 1

/-- `r` and `s` as one range, if `r` reaches `s`. -/
def join (r s : Range) : Range := ⟨r.first, if r.last < s.last then s.last else r.last⟩

/-- The part of a range from `first` to `last`. -/
def within (r : Range) (first last : Char) : Option Range :=
  if r.first ≤ last && first ≤ r.last then
    some ⟨if r.first < first then first else r.first, if last < r.last then last else r.last⟩
  else none

/-- The ASCII letters of a range in their other case. Where there are small letters, the capitals of
the range are left as they are. -/
def otherCase (r : Range) : Option Range :=
  match r.within 'a' 'z', r.within 'A' 'Z' with
  | some small, _ => some ⟨small.first.toUpper, small.last.toUpper⟩
  | none, some capital => some ⟨capital.first.toLower, capital.last.toLower⟩
  | none, none => none

end Range

namespace CharSet

def contains (s : CharSet) (c : Char) : Bool := s.any (·.contains c)

/-- A range and those behind it, with ranges that touch joined. -/
def coalesce : Range → List Range → CharSet
  | r, [] => [r]
  | r, s :: rest => if r.reaches s then coalesce (r.join s) rest else r :: coalesce s rest

/-- Ranges in increasing order; those that touch are joined. -/
def ofRanges (ranges : List Range) : CharSet :=
  match ranges.mergeSort fun r s => r.first ≤ s.first with
  | [] => []
  | r :: rest => coalesce r rest

/-- A set together with the other case of its ranges. -/
def fold (s : CharSet) : CharSet := ofRanges (s ++ s.filterMap Range.otherCase)

/-- What lies between the ranges of a set. -/
def gaps : CharSet → CharSet
  | r :: s :: rest => ⟨charAfter r.last, charBefore s.first⟩ :: gaps (s :: rest)
  | _ => []

/-- The characters outside of a set whose ranges are in order and do not touch. -/
def complement (s : CharSet) : CharSet :=
  match s.head?, s.getLast? with
  | some r, some t =>
    (if '\x00' < r.first then [⟨'\x00', charBefore r.first⟩] else []) ++ gaps s ++
      (if t.last < lastChar then [⟨charAfter t.last, lastChar⟩] else [])
  | _, _ => [⟨'\x00', lastChar⟩]

end CharSet

def digitSet : CharSet := [⟨'0', '9'⟩]

def spaceSet : CharSet := [⟨'\t', '\r'⟩, ⟨' ', ' '⟩]

def wordSet : CharSet := [⟨'0', '9'⟩, ⟨'A', 'Z'⟩, ⟨'_', '_'⟩, ⟨'a', 'z'⟩]

/-- Sets of ASCII characters by the names that they have in brackets. -/
def namedSets : List (String × CharSet) :=
  [("alnum", [⟨'0', '9'⟩, ⟨'A', 'Z'⟩, ⟨'a', 'z'⟩]), ("alpha", [⟨'A', 'Z'⟩, ⟨'a', 'z'⟩]),
   ("ascii", [⟨'\x00', '\x7f'⟩]), ("blank", [⟨'\t', '\t'⟩, ⟨' ', ' '⟩]),
   ("cntrl", [⟨'\x00', '\x1f'⟩, ⟨'\x7f', '\x7f'⟩]), ("digit", digitSet),
   ("graph", [⟨'!', '~'⟩]), ("lower", [⟨'a', 'z'⟩]), ("print", [⟨' ', '~'⟩]),
   ("punct", [⟨'!', '/'⟩, ⟨':', '@'⟩, ⟨'[', '\x60'⟩, ⟨'\x7b', '~'⟩]), ("space", spaceSet),
   ("upper", [⟨'A', 'Z'⟩]), ("word", wordSet),
   ("xdigit", [⟨'0', '9'⟩, ⟨'A', 'F'⟩, ⟨'a', 'f'⟩])]

end Bundler.Regex
