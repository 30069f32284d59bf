import Bundler.FileTree.Basic

/-!
# Replacing a file at once

New content is written to a staging file beside the target, which is then moved over the target:
a reader sees the old or the new content. A write is a sequence of stages; each of them can fail,
and a failure removes the staging file.
-/

namespace Bundler

namespace FileTree

/-- The last name of a path, and the place and whether a slash follows it. -/
structure Slot where
  parent : Trail
  name : String
  slash : Bool

/-- The segments of a path without the void ones behind its last slash. -/
def lastName (p : Path) : List String × String × Bool :=
  let segments := Path.splitSlashes p.text.toList
  match segments.reverse.dropWhile (· = "") with
  | [] => ([], "/", true)
  | last :: before => (before.reverse, last, segments.getLast? = some "")

/-- The place at which a path would make a new entry. -/
def slot (t : FileTree) (p : Path) : Except OsError Slot := do
  checkText p
  let (before, name, slash) := lastName p
  let parent ← t.followFrom p.isAbsolute before
  match t.here parent with
  | .file _ => .error .notDirectory
  | .dir _ =>
    if nameLimit < Text.byteLength name then .error .nameTooLong
    else .ok ⟨parent, name, slash⟩

def Slot.names (s : Slot) : List String := FileTree.names s.parent ++ [s.name]

/-- Whether the name stands for a directory by itself. -/
def Slot.isSpecial (s : Slot) : Bool := s.name = "." || s.name = ".." || s.name = "/"

def makeDir (t : FileTree) (p : Path) : Except OsError FileTree := do
  let s ← t.slot p
  if s.isSpecial || ((t.here s.parent).child? s.name).isSome then .error .exists
  else .ok { t with root := t.root.put (some (.dir [])) s.names }

/-- Makes a file empty, or a new one. -/
def createFile (t : FileTree) (p : Path) : Except OsError FileTree := do
  let s ← t.slot p
  if s.isSpecial || s.slash then .error .isDirectory
  else
    match (t.here s.parent).child? s.name with
    | some (.dir _) => .error .isDirectory
    | _ => .ok { t with root := t.root.put (some (.file [])) s.names }

def writeFile (t : FileTree) (p : Path) (bytes : Bytes) : Except OsError FileTree := do
  let s ← t.slot p
  .ok { t with root := t.root.put (some (.file bytes)) s.names }

def removeFile (t : FileTree) (p : Path) : Except OsError FileTree := do
  let s ← t.slot p
  match (t.here s.parent).child? s.name with
  | some (.file _) => .ok { t with root := t.root.put none s.names }
  | some (.dir _) => .error .isDirectory
  | none => .error .notFound

/-- Moves a file over another one. -/
def rename (t : FileTree) (source target : Path) : Except OsError FileTree := do
  let s ← t.slot source
  let d ← t.slot target
  if d.isSpecial then .error .busy
  else
    match (t.here s.parent).child? s.name with
    | none => .error .notFound
    | some (.dir _) => .error .isDirectory
    | some (.file bytes) =>
      if d.slash then .error .notDirectory
      else
        match (t.here d.parent).child? d.name with
        | some (.dir _) => .error .isDirectory
        | _ =>
          .ok { t with root := (t.root.put (some (.file bytes)) d.names).put none s.names }

end FileTree

/-- A file that is to get new content. `tag` tells its staging file from those of other writes. -/
structure Replacement where
  target : Path
  bytes : Bytes
  tag : String

namespace Replacement

/-- The staging file: beside the target, hidden, under a name of its own. -/
def staging (r : Replacement) : Path :=
  r.target.withFileName
    ("." ++ r.target.fileName?.getD "out" ++ "." ++ r.tag ++ ".partial")

/-- What is done next. -/
inductive Stage
  /-- A directory is made, and then those in `below`, each in the one before it; `again` if it could
  not be made before the directories it lies in. -/
  | makeDir (p : Path) (again : Bool) (below : List Path)
  /-- A directory could not be made; perhaps it is there. -/
  | inspect (p : Path) (e : OsError) (below : List Path)
  | create
  | fill
  | sync
  | move
  /-- The staging file is removed, because of a failure. -/
  | cleanUp (e : OsError)
  | done
  | failed (e : OsError)

/-- The stage behind a directory that is there. -/
def Stage.onward : List Path → Stage
  | [] => .create
  | p :: below => .makeDir p true below

/-- The stage at which a directory is needed; the empty path needs none. -/
def Stage.demand (p : Path) (below : List Path) : Stage :=
  if p.isEmpty then .onward below else .makeDir p false below

/-- What becomes of an operation: it is tried, it is refused, or, for a write, it stops behind some
bytes. -/
inductive Fate
  | tried
  | refused (e : OsError)
  | stopped (written : Nat) (e : OsError)

/-- What an operation comes to. -/
def Fate.outcome {α : Type} : Fate → Except OsError α → Except OsError α
  | .tried, r => r
  | .refused e, _ => .error e
  | .stopped _ e, _ => .error e

def start (r : Replacement) : Stage :=
  match r.target.parent? with
  | some p => .demand p []
  | none => .create

/-- One operation of a write. -/
def step (r : Replacement) (fate : Fate) : Stage → FileTree → Stage × FileTree
  | .makeDir p again below, t =>
    match fate.outcome (t.makeDir p) with
    | .ok t' => (.onward below, t')
    | .error .notFound =>
      if again then (.inspect p .notFound below, t)
      else
        match p.parent? with
        | some q => (.demand q (p :: below), t)
        | none => (.failed .notFound, t)
    | .error e => (.inspect p e below, t)
  | .inspect p e below, t =>
    match fate.outcome (.ok (t.isDir p)) with
    | .ok true => (.onward below, t)
    | _ => (.failed e, t)
  | .create, t =>
    match fate.outcome (t.createFile r.staging) with
    | .ok t' => (.fill, t')
    | .error e => (.cleanUp e, t)
  | .fill, t =>
    match fate with
    | .stopped n e => (.cleanUp e, (t.writeFile r.staging (r.bytes.take n)).toOption.getD t)
    | _ =>
      match fate.outcome (t.writeFile r.staging r.bytes) with
      | .ok t' => (.sync, t')
      | .error e => (.cleanUp e, t)
  | .sync, t =>
    match fate.outcome (.ok ()) with
    | .ok () => (.move, t)
    | .error e => (.cleanUp e, t)
  | .move, t =>
    match fate.outcome (t.rename r.staging r.target) with
    | .ok t' => (.done, t')
    | .error e => (.cleanUp e, t)
  | .cleanUp e, t =>
    (.failed e, (fate.outcome (t.removeFile r.staging)).toOption.getD t)
  | .done, t => (.done, t)
  | .failed e, t => (.failed e, t)

/-- Runs the stages, each with its fate. -/
def run (r : Replacement) : List Fate → Stage × FileTree → Stage × FileTree
  | [], s => s
  | f :: fs, s => run r fs (r.step f s.1 s.2)

/-- How many operations a write takes at most. -/
def limit (r : Replacement) : Nat := 3 * r.target.components.length + 8

end Replacement

/-- Writes a file so that it has the old content or the new one at every moment. -/
def FileTree.replace (t : FileTree) (target : Path) (bytes : Bytes) (tag : String) :
    FileTree × Except OsError Unit :=
  let r : Replacement := ⟨target, bytes, tag⟩
  match r.run (List.replicate r.limit .tried) (r.start, t) with
  | (.failed e, t') => (t', .error e)
  | (_, t') => (t', .ok ())

end Bundler
