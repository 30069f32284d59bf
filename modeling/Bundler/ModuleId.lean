import Bundler.Path
import Bundler.Table

/-!
# Module ids

A module is known by the path of its file and an optional query behind a `?`. The query is part of
the identity: two ids of one file with different queries are two modules.
-/

namespace Bundler

/-- A request cut at its first `?`. -/
def splitQuery (s : String) : String × Option String :=
  match Text.splitOnce? '?' s.toList with
  | some (path, query) => (String.ofList path, some (String.ofList query))
  | none => (s, none)

/-- A request with a query behind it. -/
def withQuery (s : String) (query : Option String) : String :=
  match query with
  | some q => s ++ "?" ++ q
  | none => s

structure ModuleId where
  text : String
deriving DecidableEq, Inhabited

namespace ModuleId

instance : Ord ModuleId := ⟨fun a b => compare a.text b.text⟩

theorem compare_eq (a b : ModuleId) : compare a b = compare a.text b.text := rfl

instance : Std.TransOrd ModuleId where
  eq_swap := by intro a b; simp only [compare_eq]; exact Std.OrientedCmp.eq_swap
  isLE_trans := by
    intro a b c hab hbc
    simp only [compare_eq] at hab hbc ⊢
    exact Std.TransCmp.isLE_trans hab hbc

instance : Std.LawfulEqOrd ModuleId where
  compare_self := by intro a; simp only [compare_eq]; exact Std.ReflCmp.compare_self
  eq_of_compare := by
    intro a b h
    cases a; cases b
    simp only [compare_eq] at h
    exact congrArg _ (Std.LawfulEqCmp.eq_of_compare h)

def ofPath (path : Path) (query : Option String) : ModuleId := ⟨withQuery path.text query⟩

/-- The id without its query. -/
def path (id : ModuleId) : Path := ⟨(splitQuery id.text).1⟩

def query (id : ModuleId) : Option String := (splitQuery id.text).2

/-- The extension of the path, in lower case. -/
def extension (id : ModuleId) : Option String := id.path.extension?.map Text.asciiLower

/-- The directory from which the module's imports are looked up. -/
def dir (id : ModuleId) : Path := id.path.parent?.getD ⟨""⟩

/-- The id as seen from `root`, with slashes only; an id outside `root` stays. -/
def relativeTo (id : ModuleId) (root : Path) : String :=
  match id.path.stripBase? root with
  | some rel => "./" ++ withQuery (Text.substitute "\\" "/" rel) id.query
  | none => id.text

/-- The form for a reader. -/
def describe (id : ModuleId) : String := "ModuleId(" ++ id.text ++ ")"

end ModuleId

/-- A set of module ids, in increasing order. -/
abbrev IdSet := Table ModuleId Unit

namespace IdSet

def ids (s : IdSet) : List ModuleId := s.keys

def add (s : IdSet) (id : ModuleId) : IdSet := s.insert id ()

def ofList (l : List ModuleId) : IdSet := l.foldl add {}

end IdSet

end Bundler
