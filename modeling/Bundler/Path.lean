import Bundler.Text.Split

/-!
# Paths

A path is the text of its names with slashes between them. It is read as components: empty names
and names `.` count for nothing, except a `.` at the front. What keeps part of a path keeps its
spelling.
-/

namespace Bundler

structure Path where
  text : String
deriving DecidableEq, Inhabited

namespace Path

inductive Component
  | root
  | here
  | up
  | name (s : String)
deriving DecidableEq

/-- What stands before the names: a slash, a `.`, or nothing. -/
inductive Anchor
  | root
  | here
  | none
deriving DecidableEq

def anchor (p : Path) : Anchor :=
  match p.text.toList with
  | '/' :: _ => .root
  | ['.'] => .here
  | '.' :: '/' :: _ => .here
  | _ => .none

def Anchor.text : Anchor → String
  | .root => "/"
  | .here => "."
  | .none => ""

def Anchor.components : Anchor → List Component
  | .root => [.root]
  | .here => [.here]
  | .none => []

/-- The text between slashes. -/
def splitSlashes (cs : List Char) : List String := (Text.pieces '/' cs).map String.ofList

/-- The names behind the anchor, as they are spelled. -/
def segments (p : Path) : List String :=
  splitSlashes (p.text.toList.drop p.anchor.text.length)

/-- A path of an anchor and names. -/
def rebuild (a : Anchor) (segments : List String) : Path :=
  ⟨a.text ++ "/".intercalate segments⟩

/-- Whether a name counts for nothing. -/
def isVoid (s : String) : Bool := s = "" || s = "."

def component (s : String) : Component := if s = ".." then .up else .name s

def components (p : Path) : List Component :=
  p.anchor.components ++ (p.segments.filter (!isVoid ·)).map component

def isAbsolute (p : Path) : Bool := Text.startsWith p.text "/"

def isEmpty (p : Path) : Bool := p.text.isEmpty

/-- Drops names that count for nothing at the end. -/
def trimEnd (segments : List String) : List String :=
  (segments.reverse.dropWhile isVoid).reverse

/-- The path without its last component; the root and the empty path have no parent. -/
def parent? (p : Path) : Option Path :=
  match p.segments.reverse.dropWhile isVoid with
  | _ :: before => some (rebuild p.anchor (trimEnd before.reverse))
  | [] =>
    match p.anchor with
    | .here => some ⟨""⟩
    | _ => none

/-- The last component, if it is a name. -/
def fileName? (p : Path) : Option String :=
  match p.components.getLast? with
  | some (.name s) => some s
  | _ => none

/-- A file name cut at its last dot, unless that is its first character. -/
def splitName (name : String) : String × Option String :=
  if name = ".." then (name, none)
  else
    match Text.splitOnce? '.' name.toList.reverse with
    | none => (name, none)
    | some (after, before) =>
      if before.isEmpty then (name, none)
      else (String.ofList before.reverse, some (String.ofList after.reverse))

def stem? (p : Path) : Option String := p.fileName?.map fun n => (splitName n).1

def extension? (p : Path) : Option String := p.fileName?.bind fun n => (splitName n).2

/-- `q` taken from `p`. -/
def join (p q : Path) : Path :=
  if q.isAbsolute then q
  else if p.isEmpty || Text.endsWith p.text "/" then ⟨p.text ++ q.text⟩
  else ⟨p.text ++ "/" ++ q.text⟩

/-- The path with another last name. -/
def withFileName (p : Path) (name : String) : Path :=
  match p.fileName? with
  | some _ => (p.parent?.getD ⟨""⟩).join ⟨name⟩
  | none => p.join ⟨name⟩

/-- Drops `n` names that count, and those that count for nothing before and behind them. -/
def dropNames : Nat → List String → List String
  | 0, ss => ss.dropWhile isVoid
  | n + 1, ss => dropNames n ((ss.dropWhile isVoid).drop 1)

/-- What follows the components of `base` in `p`. -/
def stripBase? (p base : Path) : Option String :=
  if base.components.isEmpty then some (rebuild p.anchor (trimEnd p.segments)).text
  else if base.components.isPrefixOf p.components then
    let names := base.components.length - p.anchor.components.length
    some ("/".intercalate (trimEnd (dropNames names p.segments)))
  else none

/-- Follows `.` and `..` without looking at files; `..` at the root stays there. -/
def normalize (p : Path) : Path :=
  let names := p.components.foldl (fun names c =>
    match c with
    | .up => names.dropLast
    | .name s => names ++ [s]
    | _ => names) []
  ⟨(if p.isAbsolute then "/" else "") ++ "/".intercalate names⟩

/-- The absolute path of some names. -/
def ofNames (names : List String) : Path := ⟨"/" ++ "/".intercalate names⟩

/-- Two spellings of one path: their components are the same. -/
def same (p q : Path) : Bool := p.components = q.components

end Path

end Bundler
