import Bundler.Error
import Bundler.Json.Reader
import Bundler.Loader
import Bundler.ModuleId
import Bundler.Source.Script
import Bundler.Source.Stylesheet
import Bundler.Text.Base64

/-!
# Transforms

A transform turns the content of a file into the body of a module and, for stylesheets, the text
that is collected beside it. The built-in one wraps data so that it is code.
-/

namespace Bundler

structure TransformOptions where
  inlineStyle : Bool := false
  svgr : Bool := false
deriving DecidableEq

structure TransformInput where
  id : ModuleId
  loader : Loader
  source : Bytes
  options : TransformOptions

/-- The body of a module, and its stylesheet. -/
structure Transformed where
  code : String
  css : Option String := none
deriving DecidableEq

inductive TransformError
  | malformed (message : String) (line column : Option Nat)
  | failed (reason : String)
deriving DecidableEq

abbrev Transform := TransformInput → Except TransformError Transformed

namespace Transform

/-- A module that puts its style into the document when it runs. -/
def inlineStyle (id : ModuleId) (css : String) : String :=
  "var style = document.createElement(\"style\");\n" ++
  "style.setAttribute(\"data-kestrel-id\", " ++ Json.quote id.text ++ ");\n" ++
  "style.textContent = " ++ Json.quote css ++ ";\n" ++
  "document.head.appendChild(style);\n" ++
  "module.exports = \x7b\x7d;"

/-- A module whose export shows some markup. -/
def svgComponent (markup : String) : String :=
  "var markup = " ++ Json.quote markup ++ ";\n" ++
  "function SvgComponent(props) \x7b\n" ++
  "  var React = require(\"react\");\n" ++
  "  return React.createElement(\"span\", Object.assign(\x7b dangerouslySetInnerHTML: " ++
  "\x7b __html: markup \x7d \x7d, props));\n" ++
  "\x7d\n" ++
  "module.exports = SvgComponent;\n" ++
  "module.exports.default = SvgComponent;"

/-- The media type that an extension stands for. -/
def mediaType : Option String → String
  | some "svg" => "image/svg+xml"
  | some "png" => "image/png"
  | some "jpg" => "image/jpeg"
  | some "jpeg" => "image/jpeg"
  | some "gif" => "image/gif"
  | some "webp" => "image/webp"
  | some "woff" => "font/woff"
  | some "woff2" => "font/woff2"
  | _ => "application/octet-stream"

def ofJson (source : Bytes) : Except TransformError Transformed :=
  match Json.parse source with
  | .ok value => .ok { code := "module.exports = " ++ value.compact ++ ";" }
  | .error e => .error (.malformed e.message (some e.line) (some e.column))

def ofData (id : ModuleId) (source : Bytes) : Transformed :=
  { code := "module.exports = \"data:" ++ mediaType id.extension ++ ";base64," ++
      Text.Base64.encode source ++ "\";" }

/-- The transform of every loader for which there is no other. -/
def builtin : Transform := fun input =>
  let text := Text.Utf8.lossy input.source
  match input.loader with
  | .js | .jsx | .ts | .tsx => .ok { code := text }
  | .json => ofJson input.source
  | .text => .ok { code := "module.exports = " ++ Json.quote text ++ ";" }
  | .dataUri =>
    if input.options.svgr && input.id.extension = some "svg" then
      .ok { code := svgComponent text }
    else .ok (ofData input.id input.source)
  | .css =>
    if input.options.inlineStyle then .ok { code := inlineStyle input.id text, css := some text }
    else .ok { code := "module.exports = \x7b\x7d;", css := some text }

end Transform

def TransformError.toBuildError (id : ModuleId) : TransformError → BuildError
  | .malformed message line column => .parse id.text line column message
  | .failed reason => .load id.text reason

/-- The dependencies of a transformed module: those of its style if it is a stylesheet, and those
of its code otherwise. -/
def Transformed.dependencies (t : Transformed) (id : ModuleId) (loader : Loader) :
    Except BuildError (List Mention) :=
  let scanned := match t.css, loader with
    | some css, .css => Source.scanStylesheet css
    | _, _ => Source.scanScript t.code
  match scanned with
  | .ok found => .ok found
  | .error e => .error (.parse id.text (some e.line) (some e.column) e.fault.message)

end Bundler
