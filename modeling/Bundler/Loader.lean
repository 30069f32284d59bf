import Bundler.Table
import Bundler.Text.Unicode

/-!
# Loaders

How the content of a file becomes a module, and which extension stands for which way.
-/

namespace Bundler

inductive Loader
  | js
  | jsx
  | ts
  | tsx
  | css
  | json
  | text
  | dataUri
deriving DecidableEq, Inhabited

namespace Loader

def name : Loader → String
  | .js => "js"
  | .jsx => "jsx"
  | .ts => "ts"
  | .tsx => "tsx"
  | .css => "css"
  | .json => "json"
  | .text => "text"
  | .dataUri => "dataURI"

def all : List Loader := [.js, .jsx, .ts, .tsx, .css, .json, .text, .dataUri]

/-- Whether the content is a script. -/
def isScript : Loader → Bool
  | .js | .jsx | .ts | .tsx => true
  | _ => false

/-- The loader of a name in any case; otherwise, the message. -/
def parse (s : String) : Except String Loader :=
  match Text.asciiLower s with
  | "js" => .ok .js
  | "jsx" => .ok .jsx
  | "ts" => .ok .ts
  | "tsx" => .ok .tsx
  | "css" => .ok .css
  | "json" => .ok .json
  | "text" => .ok .text
  | "datauri" => .ok .dataUri
  | "dataurl" => .ok .dataUri
  | other => .error ("unknown loader '" ++ other ++ "'")

/-- The loaders of the usual extensions. -/
def defaults : Table String Loader :=
  Table.ofList
    [("js", .js), ("mjs", .js), ("cjs", .js), ("jsx", .jsx), ("ts", .ts), ("mts", .ts),
     ("cts", .ts), ("tsx", .tsx), ("css", .css), ("json", .json), ("txt", .text),
     ("svg", .dataUri), ("png", .dataUri), ("jpg", .dataUri), ("jpeg", .dataUri),
     ("gif", .dataUri), ("webp", .dataUri)]

/-- The extension that a setting names: without dots in front and in lower case. -/
def extensionOf (s : String) : String :=
  Text.asciiLower (String.ofList (s.toList.dropWhile (· = '.')))

/-- The usual extensions, with some settings on top. -/
def map (overrides : Table String Loader) : Table String Loader :=
  overrides.toList.foldl (fun t e => t.insert (extensionOf e.1) e.2) defaults

end Loader

end Bundler
