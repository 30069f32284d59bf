import Bundler.CommandLine.Run
import Bundler.FileTree.Changes

/-!
# The program

Takes a picture of the files that a command can see, runs the command on it, and writes the files
that have changed. The picture shows the working directory, the directories that arguments name,
and the packages of the directories above them.
-/

open Bundler

namespace Bundler.Program

/-- How deep directories are looked at. -/
def depthLimit : Nat := 128

mutual

/-- The file or the directory of an entry. -/
def readEntry : Nat → IO.FS.DirEntry → IO Node
  | 0, _ => return .dir []
  | depth + 1, e => do
    if ← e.path.isDir then readEntries depth (← e.path.readDir).toList (.dir [])
    else return .file (← IO.FS.readBinFile e.path).toList

/-- Adds directory entries to a directory. What cannot be read is left out. -/
def readEntries (depth : Nat) : List IO.FS.DirEntry → Node → IO Node
  | [], dir => return dir
  | e :: rest, dir => do
    let dir ← try pure (Node.plant (← readEntry depth e) [e.fileName] dir) catch _ => pure dir
    readEntries depth rest dir

end

/-- Adds what lies below a directory. -/
def addDirectory (root : Node) (names : List String) : IO Node := do
  let path := (← IO.currentDir) / (Path.ofNames names).text
  if ← path.isDir then
    let node ← readEntries depthLimit (← path.readDir).toList (.dir [])
    return Node.plant node names root
  else return root

/-- Adds the packages of the directories above a directory, the highest one first. -/
def addPackages (root : Node) (names : List String) : IO Node :=
  (List.range names.length).foldlM (fun root n =>
    addDirectory root (names.take n ++ ["node_modules"])) root

def addProject (root : Node) (dir : String) : IO Node := do
  let path := (← IO.currentDir) / dir
  if ← path.isDir then
    let real := (← IO.FS.realPath path).toString
    let names := (Path.mk real).components.filterMap fun
      | .name n => some n
      | _ => none
    addDirectory (← addPackages root names) names
  else return root

/-- The directories that an argument may name. -/
def mentioned (arg : String) : List String :=
  match Text.splitOnce? '=' arg.toList with
  | some (_, value) => [arg, String.ofList value]
  | none => [arg]

/-- The picture of the files. -/
def look (args : List String) : IO FileTree := do
  let here := (← IO.currentDir).toString
  let root ← (here :: args.flatMap mentioned).foldlM addProject (.dir [])
  let start := (Path.mk here).components.filterMap fun
    | .name n => some n
    | _ => none
  return { root, start }

def save (files : List (Path × Bytes)) : IO Unit :=
  files.forM fun (path, bytes) => do
    if let some dir := path.parent? then IO.FS.createDirAll dir.text
    IO.FS.writeBinFile path.text ⟨bytes.toArray⟩

end Bundler.Program

open Bundler.Program in
def main (args : List String) : IO UInt32 := do
  let begun ← IO.monoMsNow
  let files ← look args
  let o := CommandLine.run files args
  save (files.written o.files)
  let elapsed := (← IO.monoMsNow) - begun
  o.output.forM fun l => IO.println (l.render (toString elapsed))
  o.errors.forM fun l => IO.eprintln l
  return UInt32.ofNat o.exit
