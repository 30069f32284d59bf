import Bundler.Hook.Bridge
import Bundler.Resolve.Resolver
import Bundler.Transform

/-!
# Loading modules

The host may supply the content of a module, or choose its loader; otherwise the content comes from
the file and the loader from the extension.
-/

namespace Bundler

/-- The content of a module, and the loader chosen for it. -/
structure Loaded where
  content : Bytes
  loader : Loader
deriving DecidableEq

/-- What loading came to, and the failure of the host, if there was one that did not matter. -/
structure LoadResult where
  result : Except BuildError Loaded
  hookError : Option BuildError

/-- The loaders of a project. -/
structure Loading where
  loaders : Table String Loader
  transforms : Loader → Transform := fun _ => Transform.builtin
  options : TransformOptions := {}

namespace Loading

/-- The loader of an extension. -/
def select (p : Loading) (id : ModuleId) : Except BuildError Loader :=
  let ext := id.extension.getD ""
  match p.loaders.get? ext with
  | some l => .ok l
  | none =>
    .error (.load id.text
      (if ext.isEmpty then "no loader for extension (file has none)"
       else "no loader for extension '." ++ ext ++ "'"))

/-- The chosen loader, or the one of the extension. -/
def loaderFor (p : Loading) (id : ModuleId) (chosen : Option Loader) : Except BuildError Loader :=
  match chosen with
  | some l => .ok l
  | none => p.select id

/-- The content of the file of a module. -/
def ofFile (p : Loading) (files : FileTree) (id : ModuleId) (chosen : Option Loader) :
    Except BuildError Loaded := do
  let loader ← p.loaderFor id chosen
  match files.read id.path with
  | .ok content => return ⟨content, loader⟩
  | .error e => throw (.load id.text e.message)

/-- Uses an answer of the host. -/
def ofAnswer (p : Loading) (files : FileTree) (id : ModuleId) (a : LoadAnswer) : LoadResult :=
  match a.loader.map Loader.parse with
  | some (.error reason) => ⟨.error (.load id.text reason), none⟩
  | chosen =>
    let chosen := chosen.bind (·.toOption)
    match a.content with
    | some text =>
      ⟨(p.loaderFor id chosen).map fun l => ⟨Text.Utf8.encode text, l⟩, none⟩
    | none => ⟨p.ofFile files id chosen, none⟩

/-- Loads a module. The error is the reason of a breakdown. -/
def load (p : Loading) (w : World) (b : Bridge) (id : ModuleId) :
    Bridge × Except String LoadResult :=
  match b.load w.host id.text with
  | (b, .answered none) => (b, .ok ⟨p.ofFile w.files id none, none⟩)
  | (b, .answered (some a)) => (b, .ok (p.ofAnswer w.files id a))
  | (b, .failed f) =>
    (b, .ok ⟨p.ofFile w.files id none, some (Bridge.failure .load id.text f)⟩)
  | (b, .panicked reason) => (b, .error reason)

def transform (p : Loading) (id : ModuleId) (l : Loaded) : Except BuildError Transformed :=
  match p.transforms l.loader ⟨id, l.loader, l.content, p.options⟩ with
  | .ok t => .ok t
  | .error e => .error (e.toBuildError id)

end Loading

end Bundler
