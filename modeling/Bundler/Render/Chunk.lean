import Bundler.Chunk.Partition
import Bundler.Render.Minify
import Bundler.Render.Runtime
import Bundler.Render.SourceMap

/-!
# Rendering chunks

A chunk becomes a script: the runtime, the table of async chunks, a definition for each member and,
in an entry chunk, the start of the entry. The script is put together from segments, of which the
bodies of modules know their source; from them the source map is read off. Beside the script there
may be the map and the styles of the members.
-/

namespace Bundler

structure OutputFile where
  fileName : String
  content : String
deriving DecidableEq, Inhabited

/-- The files of a chunk: the script first, then its map and its styles. -/
structure RenderedChunk where
  name : String
  fileName : String
  hash : String
  files : List OutputFile
deriving DecidableEq

structure RenderOptions where
  /-- Module keys are relative to it. -/
  root : Path
  entryFilename : String := "[name].js"
  minify : Bool := false
  sourceMap : Bool := false
  refresh : Bool := false
  inlineStyle : Bool := false
deriving DecidableEq

def Options.renderOptions (o : Options) (root : Path) : RenderOptions :=
  { root, entryFilename := o.entryFilename, minify := o.minify, sourceMap := o.sourceMap,
    refresh := o.refresh, inlineStyle := o.inlineStyle }

structure Renderer where
  options : RenderOptions
  minifier : Minifier := minifyBlanks

/-- The name of a file by a pattern. -/
def outputName (pattern name hash : String) : String :=
  Text.substitute "[contenthash]" hash (Text.substitute "[name]" name pattern)

namespace Render

/-- How many digits a hash in a file name has. -/
def hashLength : Nat := 8

/-- A piece of a script; a body has the number of its source. -/
structure Segment where
  text : String
  source : Option Nat := none

def code (segments : List Segment) : String := String.join (segments.map (·.text))

/-- The mappings of the bodies among some segments that begin on a line. -/
def mappings : Nat → List Segment → List SourceMap.Mapping
  | _, [] => []
  | line, s :: rest =>
    let own := match s.source with
      | some i => (List.range (Text.lines s.text.toList).length).map fun k => ⟨line + k, i, k⟩
      | none => []
    own ++ mappings (line + Text.countBreaks s.text.toList) rest

section
variable (r : Renderer)

def minified (text : String) : String := if r.options.minify then r.minifier text else text

/-- The key of a module in scripts. -/
def key (id : ModuleId) : String := id.relativeTo r.options.root

/-- Which chunk to load for the modules that are imported dynamically. -/
def asyncTable (chunks : ChunkGraph) (c : Chunk) : List Segment :=
  if c.dynamicImports.isEmpty then []
  else
    let entries := c.dynamicImports.filterMap fun name =>
      ((chunks.get? name).bind (·.entry)).map fun id => (key r id, Json.text name)
    [⟨"__kestrel__.async(" ++ (Json.object (Json.sortedFields entries)).compact ++ ");\n", none⟩]

/-- The key of each specifier; null for what lies outside. -/
def dependencyTable (m : Module) : Json :=
  .object (Json.sortedFields (m.dependencies.filterMap fun d =>
    d.target.map fun t => (d.specifier, if d.external then .null else .text (key r t))))

def refreshLines (k : String) : List Segment :=
  if r.options.refresh then
    [⟨"var $RefreshReg$ = function (type, id) \x7b __kestrel__.refreshReg(type, " ++
      Json.quote (k ++ " ") ++ " + id); \x7d;\n" ++
      "var $RefreshSig$ = __kestrel__.refreshSig;\n", none⟩]
  else []

/-- The definition of a module, with the number of its source. -/
def definition (m : Module) (id : ModuleId) (source : Nat) : List Segment :=
  let k := key r id
  let body := minified r m.code
  [⟨"__kestrel__.define(" ++ Json.quote k ++ ", " ++ (dependencyTable r m).compact ++
    ", function (module, exports, require) \x7b\n", none⟩] ++
  refreshLines r k ++
  [⟨body, some source⟩] ++
  (if !body.isEmpty && !Text.endsWith body "\n" then [⟨"\n", none⟩] else []) ++
  [⟨"\x7d);\n", none⟩]

/-- The start of the entry. -/
def startLine (c : Chunk) : List Segment :=
  match c.kind, c.entry with
  | .entry, some id => [⟨"__kestrel__.require(" ++ Json.quote (key r id) ++ ");\n", none⟩]
  | _, _ => []

/-- The members of a chunk that are in the graph. -/
def members (g : ModuleGraph) (c : Chunk) : List (ModuleId × Module) :=
  c.modules.filterMap fun id => (g.get? id).map fun m => (id, m)

def segments (g : ModuleGraph) (chunks : ChunkGraph) (c : Chunk) : List Segment :=
  [⟨minified r runtime, none⟩] ++ asyncTable r chunks c ++
  ((members g c).zipIdx.flatMap fun m => definition r m.1.2 m.1.1 m.2) ++
  startLine r c

/-- The styles of the members, each behind its key. -/
def styles (g : ModuleGraph) (c : Chunk) : String :=
  if r.options.inlineStyle then ""
  else
    String.join ((members g c).map fun (id, m) =>
      match m.loader, m.css with
      | some .css, some text =>
        "/* " ++ key r id ++ " */\n" ++ text ++ (if Text.endsWith text "\n" then "" else "\n")
      | _, _ => "")

/-- The last name of a path of an output file. -/
def lastName (path : String) : String :=
  String.ofList (((Text.pieces '/' path.toList).getLast?).getD [])

def sourceMap (g : ModuleGraph) (c : Chunk) (segments : List Segment) : SourceMap :=
  ⟨(members g c).map fun m => (key r m.1, m.2.code), mappings 0 segments⟩

end

end Render

open Render in
def Renderer.renderChunk (r : Renderer) (g : ModuleGraph) (chunks : ChunkGraph) (c : Chunk) :
    RenderedChunk :=
  let segments := segments r g chunks c
  let script := code segments
  let hash := (Fingerprint.ofBytes (Text.Utf8.encode script)).short hashLength
  let fileName := outputName r.options.entryFilename c.name hash
  let mapName := fileName ++ ".map"
  let files := if r.options.sourceMap then
      [⟨fileName, script ++ "//# sourceMappingURL=" ++ lastName mapName ++ "\n"⟩,
       ⟨mapName, ((sourceMap r g c segments).toJson fileName).compact⟩]
    else [⟨fileName, script⟩]
  let css := styles r g c
  { name := c.name, fileName, hash
    files := files ++ (if css.isEmpty then [] else [⟨c.name ++ ".css", css⟩]) }

end Bundler
