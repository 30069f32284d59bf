import Bundler.FileTree.Basic
import Bundler.Json.Reader
import Bundler.Resolve.Package

/-!
# Looking files up

A request is looked up from a directory: relative and absolute requests name a file, perhaps
without its extension, or a directory with an index file or a `package.json`; others name a package
in a `node_modules` of the directory or of one above it.
-/

namespace Bundler

/-- Why a look-up found nothing. -/
inductive LookupFault
  | emptySpecifier
  | notFound
  | unsupportedScheme
  | noPackage (name : String)
  /-- Directories whose `package.json` lead to each other. -/
  | endless
deriving DecidableEq

def LookupFault.message : LookupFault → String
  | .emptySpecifier => "empty specifier"
  | .notFound => "module not found"
  | .unsupportedScheme => "unsupported URL scheme"
  | .noPackage name => "cannot find package '" ++ name ++ "' in node_modules"
  | .endless => "package entries lead to each other"

/-- The outcome of trying some candidates: a file, none, or no end. -/
inductive Search
  | found (p : Path)
  | absent
  | endless
deriving DecidableEq

/-- Goes on with `next` when nothing was found. -/
def Search.orElse (s : Search) (next : Unit → Search) : Search :=
  match s with
  | .absent => next ()
  | s => s

/-- Where files are looked up, and the extensions that are tried. -/
structure Lookup where
  files : FileTree
  extensions : List String

namespace Lookup

/-- The file at a path, by its canonical path. -/
def file (l : Lookup) (p : Path) : Search :=
  if l.files.isFile p then
    match l.files.canonical p with
    | .ok q => .found q
    | .error _ => .absent
  else .absent

/-- The first of some paths that is a file. -/
def firstFile (l : Lookup) : List Path → Search
  | [] => .absent
  | p :: ps => (l.file p).orElse fun _ => firstFile l ps

/-- The first of some searches that is not in vain. -/
def firstOf {α : Type} (search : α → Search) : List α → Search
  | [] => .absent
  | a :: as => (search a).orElse fun _ => firstOf search as

/-- The `package.json` of a directory, if it is one. -/
def manifest? (l : Lookup) (dir : Path) : Option Json :=
  let p := dir.join ⟨"package.json"⟩
  if l.files.isFile p then
    match l.files.readText p with
    | .ok text => (Json.parse (Text.Utf8.encode text)).toOption
    | .error _ => none
  else none

/-- A file; a file with an extension; in a directory, an index file; and otherwise what its
`package.json` offers. At most `fuel` directories lead to each other. -/
def fileOrDirectory (l : Lookup) : Nat → Path → Search
  | 0, _ => .endless
  | fuel + 1, target =>
    (l.file target).orElse fun _ =>
    (l.firstFile (l.extensions.map fun ext => ⟨target.text ++ ext⟩)).orElse fun _ =>
    if l.files.isDir target then
      (l.firstFile (l.extensions.map fun ext => target.join ⟨"index" ++ ext⟩)).orElse fun _ =>
      if l.files.isFile (target.join ⟨"package.json"⟩) then
        match l.manifest? target with
        | some manifest =>
          firstOf (fun entry => fileOrDirectory l fuel (target.join ⟨entry⟩).normalize)
            (Package.entries manifest none)
        | none => .absent
      else .absent
    else .absent

/-- What a package in a directory offers for a request. -/
def packageEntry (l : Lookup) (fuel : Nat) (dir : Path) (subpath : Option String) : Search :=
  match l.manifest? dir with
  | some manifest =>
    firstOf (fun entry => l.fileOrDirectory fuel (dir.join ⟨entry⟩).normalize)
      (Package.entries manifest subpath)
  | none => .absent

/-- A directory and those above it, by the text of its path. -/
def upward : Nat → Path → List Path
  | 0, dir => [dir]
  | fuel + 1, dir =>
    match dir.parent? with
    | some p => dir :: upward fuel p
    | none => [dir]

/-- A package for a request in the `node_modules` of one directory. -/
def packageIn (l : Lookup) (fuel : Nat) (request : Package.Request) (dir : Path) : Search :=
  let package := (dir.join ⟨"node_modules"⟩).join ⟨request.name⟩
  if l.files.isDir package then
    (l.packageEntry fuel package request.subpath).orElse fun _ =>
      l.fileOrDirectory fuel (match request.subpath with
        | some sub => package.join ⟨sub⟩
        | none => package)
  else .absent

mutual

/-- The number of directories at or below a node. -/
def countDirs : Node → Nat
  | .file _ => 0
  | .dir children => countDirsIn children + 1

def countDirsIn : List (String × Node) → Nat
  | [] => 0
  | (_, node) :: rest => countDirs node + countDirsIn rest

end

/-- More steps than there can be directories without one of them coming twice, by its absolute path
or by its relative one. -/
def fuel (l : Lookup) : Nat := 2 * countDirs l.files.root + 3

def isRelative (request : String) : Bool :=
  request = "." || request = ".." || Text.startsWith request "./" || Text.startsWith request "../"

/-- What a search is worth as the answer to a request. -/
def answer (fault : LookupFault) : Search → Except LookupFault Path
  | .found p => .ok p
  | .absent => .error fault
  | .endless => .error .endless

/-- Looks a request, without its query, up from a directory. -/
def find (l : Lookup) (dir : Path) (request : String) : Except LookupFault Path :=
  if request.isEmpty then .error .emptySpecifier
  else if isRelative request then
    answer .notFound (l.fileOrDirectory l.fuel (dir.join ⟨request⟩).normalize)
  else if Path.isAbsolute ⟨request⟩ then
    answer .notFound (l.fileOrDirectory l.fuel ⟨request⟩)
  else if request.toList.contains ':' then .error .unsupportedScheme
  else
    let r := Package.Request.parse request
    answer (.noPackage r.name)
      (firstOf (l.packageIn l.fuel r) (upward (dir.components.length + 1) dir))

end Lookup

/-- What look-ups came to, by the directory they started from and the request. -/
structure LookupCache where
  known : List ((List Path.Component × String) × Option Path) := []

namespace LookupCache

/-- Two spellings of one directory are one key. -/
def key (dir : Path) (request : String) : List Path.Component × String :=
  (dir.components, request)

def get? (c : LookupCache) (dir : Path) (request : String) : Option (Option Path) :=
  (c.known.find? fun e => e.1 = key dir request).map (·.2)

/-- Looks up unless the answer is known. A request that failed before is not found, whatever the
first fault was. -/
def lookup (c : LookupCache) (l : Lookup) (dir : Path) (request : String) :
    LookupCache × Except LookupFault Path :=
  match c.get? dir request with
  | some (some p) => (c, .ok p)
  | some none => (c, .error .notFound)
  | none =>
    let r := l.find dir request
    (⟨(key dir request, r.toOption) :: c.known⟩, r)

end LookupCache

end Bundler
