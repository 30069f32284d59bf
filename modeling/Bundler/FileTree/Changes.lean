import Bundler.FileTree.Basic

/-!
# Differences between file trees

What has to be written to get from one tree to another.
-/

namespace Bundler

namespace Node

mutual

/-- The files below a node, with the names that lead to them. -/
def files (names : List String) : Node → List (List String × Bytes)
  | .file bytes => [(names, bytes)]
  | .dir children => filesOf names children

def filesOf (names : List String) : List (String × Node) → List (List String × Bytes)
  | [] => []
  | (n, child) :: rest => child.files (names ++ [n]) ++ filesOf names rest

end

end Node

/-- The files of `after` that are not in `before` or have other content there. -/
def FileTree.written (before after : FileTree) : List (Path × Bytes) :=
  (after.root.files []).filterMap fun (names, bytes) =>
    match before.root.at? names with
    | some (.file old) => if old = bytes then none else some (.ofNames names, bytes)
    | _ => some (.ofNames names, bytes)

end Bundler
