import Bundler.Json.Schema
import Bundler.Options.Basic

/-!
# Reading and writing options

Options are a JSON object with a field for each of them; only the entries are required.
-/

namespace Bundler

namespace Options

open Json.Schema

def path : Json.Reader Path := do return ⟨← textAs "path string"⟩

def loaderNames : List String :=
  ["js", "jsx", "ts", "tsx", "css", "json", "text", "dataURI", "datauri", "dataurl"]

/-- What a loader may be called in options. -/
def loaderChoices : List (String × Loader) :=
  Loader.all.map (fun l => (l.name, l)) ++ [("datauri", .dataUri), ("dataurl", .dataUri)]

def loaderReader : Json.Reader Loader := choice loaderChoices loaderNames

def scope : Json.Reader ChunkScope :=
  choice [("initial", .initial), ("all", .all)] ["initial", "all"]

def groupFields : List (RecordField CacheGroup) :=
  [.of "name" string (fun v g => { g with name := v }) true,
   .of "chunks" scope (fun v g => { g with chunks := v }) false,
   .of "minSize" (whole "u64") (fun v g => { g with minSize := v }) false,
   .of "minChunks" (whole "usize") (fun v g => { g with minChunks := v }) false,
   .of "test" (optional string) (fun v g => { g with test := v }) false]

def group : Json.Reader CacheGroup := record "CacheGroup" groupFields { name := "" }

def fields : List (RecordField Options) :=
  [.of "entries" (table string) (fun v o => { o with entries := v }) true,
   .of "minify" flag (fun v o => { o with minify := v }) false,
   .of "root" path (fun v o => { o with root := v }) false,
   .of "outdir" (optional path) (fun v o => { o with outdir := v }) false,
   .of "entryFilename" string (fun v o => { o with entryFilename := v }) false,
   .of "loader" (table loaderReader) (fun v o => { o with loader := v }) false,
   .of "inlineStyle" flag (fun v o => { o with inlineStyle := v }) false,
   .of "alias" (table string) (fun v o => { o with aliases := v }) false,
   .of "refresh" flag (fun v o => { o with refresh := v }) false,
   .of "sourceMap" flag (fun v o => { o with sourceMap := v }) false,
   .of "codeSplitting" flag (fun v o => { o with codeSplitting := v }) false,
   .of "svgr" flag (fun v o => { o with svgr := v }) false,
   .of "lazyCompilation" flag (fun v o => { o with lazyCompilation := v }) false,
   .of "progress" flag (fun v o => { o with progress := v }) false,
   .of "externals" (list string) (fun v o => { o with externals := v }) false,
   .of "extensions" (list string) (fun v o => { o with extensions := v }) false,
   .of "cacheGroups" (list group) (fun v o => { o with cacheGroups := v }) false,
   .of "strict" flag (fun v o => { o with strict := v }) false,
   .of "hookTimeoutMs" (optional (whole "u64")) (fun v o => { o with hookTimeoutMs := v }) false]

/-- The options that bytes denote. -/
def parseBytes (bytes : Bytes) : Except Json.Failure Options :=
  Json.Reader.runAll (record "BundlerOptions" fields {}) bytes

def parse (text : String) : Except Error Options :=
  match parseBytes (Text.Utf8.encode text) with
  | .ok o => .ok o
  | .error e => .error (.configJson e)

/-- The options in a file. A relative root is taken from the file's directory. -/
def ofFile (files : FileTree) (path : Path) : Except Error Options := do
  let text ← match files.readText path with
    | .ok s => pure s
    | .error e => throw (.configRead path e)
  let o ← match parseBytes (Text.Utf8.encode text) with
    | .ok o => pure o
    | .error e => throw (.configParse path e)
  if o.root.isAbsolute then return o
  else return { o with root := (path.parent?.getD ⟨"."⟩).join o.root }

/-! ## Writing -/

def textOr (s : Option String) : Json := (s.map Json.text).getD .null

def loaderTable (t : Table String Loader) : Json :=
  .object (t.toList.map fun e => (e.1, .text e.2.name))

def textTable (t : Table String String) : Json := .object (t.toList.map fun e => (e.1, .text e.2))

def groupJson (g : CacheGroup) : Json :=
  .object
    [("name", .text g.name), ("chunks", .text g.chunks.name), ("minSize", .nat g.minSize),
     ("minChunks", .nat g.minChunks), ("test", textOr g.test)]

def toJson (o : Options) : Json :=
  .object
    [("entries", textTable o.entries), ("minify", .bool o.minify), ("root", .text o.root.text),
     ("outdir", textOr (o.outdir.map (·.text))), ("entryFilename", .text o.entryFilename),
     ("loader", loaderTable o.loader), ("inlineStyle", .bool o.inlineStyle),
     ("alias", textTable o.aliases), ("refresh", .bool o.refresh), ("sourceMap", .bool o.sourceMap),
     ("codeSplitting", .bool o.codeSplitting), ("svgr", .bool o.svgr),
     ("lazyCompilation", .bool o.lazyCompilation), ("progress", .bool o.progress),
     ("externals", .texts o.externals), ("extensions", .texts o.extensions),
     ("cacheGroups", .list (o.cacheGroups.map groupJson)), ("strict", .bool o.strict),
     ("hookTimeoutMs", (o.hookTimeoutMs.map Json.nat).getD .null)]

end Options

end Bundler
