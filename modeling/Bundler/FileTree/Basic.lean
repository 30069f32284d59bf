import Bundler.Path
import Bundler.Table
import Bundler.Text.Utf8

/-!
# File trees

A tree of named files and directories without links, and what an operating system answers about
it. Paths are followed as they are written: every name but the last has to be a directory that
exists, also before `..`, and a path that ends with a slash names a directory.
-/

namespace Bundler

inductive Node
  | file (bytes : Bytes)
  | dir (children : List (String × Node))
deriving Inhabited

/-- Why the operating system refused. -/
inductive OsError
  | notFound
  | busy
  | exists
  | notDirectory
  | isDirectory
  | nameTooLong
  | nulInName
  | notUtf8
  /-- A failure of a device or of a permission, by its number and text. -/
  | other (number : Nat) (text : String)
deriving DecidableEq

/-- A message with the number of a system error. -/
def OsError.numbered (text : String) (n : Nat) : String :=
  text ++ " (os error " ++ toString n ++ ")"

def OsError.message : OsError → String
  | .notFound => numbered "No such file or directory" 2
  | .busy => numbered "Device or resource busy" 16
  | .exists => numbered "File exists" 17
  | .notDirectory => numbered "Not a directory" 20
  | .isDirectory => numbered "Is a directory" 21
  | .nameTooLong => numbered "File name too long" 36
  | .nulInName => "file name contained an unexpected NUL byte"
  | .notUtf8 => "stream did not contain valid UTF-8"
  | .other n text => numbered text n

namespace Node

def child? (node : Node) (name : String) : Option Node :=
  match node with
  | .dir children => Table.find name children
  | .file _ => none

def isFile : Node → Bool
  | .file _ => true
  | .dir _ => false

/-- What stands at the end of some names. -/
def at? : List String → Node → Option Node
  | [], node => some node
  | n :: rest, node => (node.child? n).bind (at? rest)

/-- Puts `new` at the end of some names, or removes what is there. Nothing changes below a file or
a directory that is not there. -/
def put (new : Option Node) : List String → Node → Node
  | [], node => new.getD node
  | _, .file bytes => .file bytes
  | [n], .dir children =>
    .dir (match new with
      | some node => Table.place n node children
      | none => children.filter (·.1 ≠ n))
  | n :: rest, .dir children =>
    match Table.find n children with
    | some c => .dir (Table.place n (put new rest c) children)
    | none => .dir children

/-- Puts a node at the end of some names and makes the directories on the way to it. -/
def plant (new : Node) : List String → Node → Node
  | [], _ => new
  | n :: rest, .dir children =>
    .dir (Table.place n (plant new rest ((Table.find n children).getD (.dir []))) children)
  | n :: rest, .file _ => .dir [(n, plant new rest (.dir []))]

end Node

/-- The files below the root, and the names of the directory where relative paths start. -/
structure FileTree where
  root : Node
  start : List String
deriving Inhabited

namespace FileTree

/-- The longest name, and the shortest path that is too long, in bytes. -/
def nameLimit : Nat := 255

def pathLimit : Nat := 4096

/-- A place in the tree: the nodes on the way to it, the last one first, with their names. -/
abbrev Trail := List (String × Node)

/-- The node at a place. -/
def here (t : FileTree) : Trail → Node
  | [] => t.root
  | (_, node) :: _ => node

/-- Follows some names as they are spelled. -/
def follow (t : FileTree) : List String → Trail → Except OsError Trail
  | [], trail => .ok trail
  | s :: rest, trail =>
    match t.here trail with
    | .file _ => .error .notDirectory
    | .dir children =>
      if Path.isVoid s then follow t rest trail
      else if s = ".." then follow t rest trail.tail
      else if nameLimit < Text.byteLength s then .error .nameTooLong
      else
        match Table.find s children with
        | some node => follow t rest ((s, node) :: trail)
        | none => .error .notFound

/-- The place where relative paths start. -/
def startTrail (t : FileTree) : Trail :=
  match t.follow t.start [] with
  | .ok trail => trail
  | .error _ => []

/-- The place that some segments of a path lead to. -/
def followFrom (t : FileTree) (absolute : Bool) (segments : List String) : Except OsError Trail :=
  t.follow segments (if absolute then [] else t.startTrail)

/-- Faults of the text of a path. -/
def checkText (p : Path) : Except OsError Unit :=
  if p.text.toList.contains '\x00' then .error .nulInName
  else if p.isEmpty then .error .notFound
  else if pathLimit ≤ Text.byteLength p.text then .error .nameTooLong
  else .ok ()

def locate (t : FileTree) (p : Path) : Except OsError Trail := do
  checkText p
  t.followFrom p.isAbsolute (Path.splitSlashes p.text.toList)

def node? (t : FileTree) (p : Path) : Option Node := (t.locate p).toOption.map t.here

def isFile (t : FileTree) (p : Path) : Bool :=
  match t.node? p with
  | some (.file _) => true
  | _ => false

def isDir (t : FileTree) (p : Path) : Bool :=
  match t.node? p with
  | some (.dir _) => true
  | _ => false

/-- The names that lead from the root to a place. -/
def names (trail : Trail) : List String := (trail.map (·.1)).reverse

/-- The absolute path of what is there, without `.`, `..` and doubled slashes. -/
def canonical (t : FileTree) (p : Path) : Except OsError Path :=
  (t.locate p).map fun trail => .ofNames (names trail)

def read (t : FileTree) (p : Path) : Except OsError Bytes := do
  match t.here (← t.locate p) with
  | .file bytes => .ok bytes
  | .dir _ => .error .isDirectory

def readText (t : FileTree) (p : Path) : Except OsError String := do
  match Text.Utf8.decode? (← t.read p) with
  | some s => .ok s
  | none => .error .notUtf8

end FileTree

end Bundler
