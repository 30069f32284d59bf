import Bundler.Json.Basic

/-!
# Packages

How a request names a package, and which file of it `package.json` offers for a request.
-/

namespace Bundler.Package

/-- A package name, and what follows it. -/
structure Request where
  name : String
  subpath : Option String
deriving DecidableEq

/-- A package's name is what stands before the first slash, or before the second one if it begins
with `@`. -/
def Request.parse (s : String) : Request :=
  match s.toList with
  | '@' :: _ =>
    match Text.splitOnce? '/' s.toList with
    | none => ⟨s, none⟩
    | some (scope, rest) =>
      match Text.splitOnce? '/' rest with
      | none => ⟨s, none⟩
      | some (name, sub) => ⟨String.ofList (scope ++ '/' :: name), some (String.ofList sub)⟩
  | cs =>
    match Text.splitOnce? '/' cs with
    | none => ⟨s, none⟩
    | some (name, sub) => ⟨String.ofList name, some (String.ofList sub)⟩

/-- The conditions of an export, the preferred one first. -/
def conditions : List String := ["import", "default", "require"]

mutual

/-- The target of an export: a text, or the first target among its conditions. -/
def exportTarget? : Json → Option String
  | .text s => some s
  | .object fields =>
    let targets := fieldTargets fields
    conditions.findSome? fun c => (Table.find c targets).join
  | _ => none

/-- The targets of some fields. -/
def fieldTargets : List (String × Json) → List (String × Option String)
  | [] => []
  | (k, v) :: rest => (k, exportTarget? v) :: fieldTargets rest

end

/-- What `exports` offers for a key. Conditions at its top stand for the package itself. -/
def exported? (exports : Json) (key : String) : Option String :=
  match exports with
  | .text s => if key = "." then some s else none
  | .object fields =>
    match Table.find key fields with
    | some v => exportTarget? v
    | none =>
      if key = "." && !fields.any fun f => Text.startsWith f.1 "." then exportTarget? exports
      else none
  | _ => none

/-- The files that a `package.json` offers for a request, in the order in which they are tried:
what it exports, then, for the package itself, its module and its main file. -/
def entries (manifest : Json) (subpath : Option String) : List String :=
  let key := match subpath with
    | some s => "./" ++ s
    | none => "."
  let exports := (manifest.field? "exports").bind fun e => exported? e key
  let fallbacks := if subpath.isSome then [] else
    ["module", "main"].filterMap fun f => (manifest.field? f).bind Json.text?
  exports.toList ++ fallbacks

end Bundler.Package
