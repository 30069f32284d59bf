import Bundler.CommandLine.Command
import Bundler.CommandLine.Help
import Bundler.Options.Read
import Bundler.Session

/-!
# Running commands

What the program prints for its arguments and the files that it sees, and what the files are then.
-/

namespace Bundler.CommandLine

/-- A line of output. -/
inductive Line
  | text (s : String)
  /-- The last line of a build, in which the time is told. -/
  | summary (modules chunks : Nat)

def Line.render (elapsed : String) : Line → String
  | .text s => s
  | .summary modules chunks =>
    "  " ++ toString modules ++ " modules, " ++ toString chunks ++ " chunks, " ++ elapsed ++ "ms"

structure Outcome where
  exit : Nat
  output : List Line := []
  errors : List String := []
  files : FileTree

/-- The version of the program. -/
def programVersion : String := "0.1.0"

def Refusal.outcome (files : FileTree) : Refusal → Outcome
  | .help u => { exit := 0, output := u.help.map .text, files }
  | .version => { exit := 0, output := [.text (programName ++ " " ++ programVersion)], files }
  | .misuse reason => { exit := 2, errors := ["error: " ++ reason], files }

/-- The outcome of a command that cannot be carried out. -/
def failure (files : FileTree) (message : String) : Outcome :=
  { exit := 1, errors := ["Error: " ++ message], files }

/-- The file that options are read from when none is named. -/
def defaultConfig : Path := ⟨"kestrel.json"⟩

/-- The options of a project. -/
def loadOptions (files : FileTree) (cwd : Path) (config : Option Path) : Except Error Options :=
  match config with
  | some path => Options.ofFile files (cwd.join path)
  | none =>
    if files.isFile (cwd.join defaultConfig) then Options.ofFile files (cwd.join defaultConfig)
    else .ok { root := cwd }

/-- The name and the specifier of an entry. A path alone is named after its file. -/
def parseEntry (text : String) : Option (String × String) :=
  match Text.splitOnce? '=' text.toList with
  | some (name, path) =>
    let name := String.ofList (Text.trim name)
    let path := String.ofList (Text.trim path)
    if name.isEmpty || path.isEmpty then none else some (name, path)
  | none => (Path.mk text).stem?.map fun stem => (stem, text)

/-- The entries of a command line. -/
def parseEntries (entries : List String) : Except Error (Table String String) := do
  let pairs ← entries.mapM fun e =>
    match parseEntry e with
    | some pair => .ok pair
    | none => .error (.other ("invalid entry '" ++ e ++ "', expected NAME=PATH"))
  return .ofList pairs

/-- Options with what a command line sets on top. -/
def override (o : Options) (cwd : Path) (r : BuildRequest) : Except Error Options := do
  let entries ← if r.entries.isEmpty then .ok o.entries else parseEntries r.entries
  return { o with
    entries
    outdir := (r.outdir.map cwd.join).or o.outdir
    codeSplitting := o.codeSplitting || r.splitting
    minify := o.minify || r.minify
    sourceMap := o.sourceMap || r.sourceMap
    strict := o.strict || r.strict }

def chunkLines (c : ChunkInfo) : List Line :=
  .text ("  " ++ c.name ++ " -> " ++ c.files.head?.getD "-" ++ " (" ++
    toString c.modules.length ++ " modules)") ::
  (c.files.drop 1).map fun extra => .text ("    + " ++ extra)

def diagnosticLine (d : Diagnostic) : String :=
  "  error[" ++ d.code ++ "]: " ++ d.message ++
    (match d.module with
     | some m => " (" ++ m ++ ")"
     | none => "")

/-- The report on a result. -/
def reportResult (files : FileTree) (json : Bool) (r : BuildResult) : Outcome :=
  let exit := if r.success then 0 else 1
  if json then { exit, output := [.text r.toJson.spread], files }
  else
    { exit
      output := r.chunks.flatMap chunkLines ++ [.summary r.modules.length r.chunks.length]
      errors := r.errors.map diagnosticLine
      files }

/-- How many rounds of processing a build may take; each one brings every module a step further. -/
def roundLimit : Nat := 1000000

/-- A session without a host and with the built-in transforms. -/
def openSession (files : FileTree) (o : Options) : Except Error Session :=
  Session.create o files (fun _ => Transform.builtin) minifyBlanks

/-- Builds once; a request to go on watching is not served. -/
def runBuild (files : FileTree) (cwd : Path) (json : Bool) (r : BuildRequest) : Outcome :=
  let made := do
    let o ← loadOptions files cwd r.config
    openSession files (← override o cwd r)
  match made with
  | .error e => failure files e.message
  | .ok s =>
    match s.build ⟨files, none⟩ roundLimit with
    | none => failure files "too many rounds"
    | some report =>
      match report.outcome with
      | .ok result => reportResult report.files json result
      | .error (.buildFailed _) => reportResult report.files json report.session.last
      | .error e => failure report.files e.message

def resolutionJson (r : Resolution) : Json :=
  match r.outcome with
  | .ok t => .object [("status", .bool true), ("result", .text t.id.text)]
  | .error _ => .object [("status", .bool false)]

def runResolve (files : FileTree) (cwd : Path) (json : Bool) (specifier : String)
    (dir config : Option Path) : Outcome :=
  let made := do
    let o ← loadOptions files cwd config
    -- A session asks for an entry, although none is needed to resolve.
    openSession files
      (if o.entries.isEmpty then { o with entries := .ofList [("resolve", ".")] } else o)
  match made with
  | .error e => failure files e.message
  | .ok s =>
    let dir := (dir.map cwd.join).getD cwd
    match (s.resolve ⟨files, none⟩ specifier dir).2 with
    -- There is no host that could break down.
    | .error reason => failure files reason
    | .ok r =>
      let exit := if r.outcome.isOk then 0 else 1
      if json then { exit, output := [.text (resolutionJson r).compact], files }
      else
        match r.outcome with
        | .ok t => { exit, output := [.text t.id.text], files }
        | .error _ =>
          let message := "error: cannot resolve '" ++ specifier ++ "' from " ++ dir.text
          { exit, errors := [message], files }

def runResolveFile (files : FileTree) (dir : Path) (json : Bool) (specifier : String) : Outcome :=
  match resolveFile files dir specifier, json with
  | .ok path, true =>
    let answer : Json := .object [("ok", .bool true), ("path", .text path.text)]
    { exit := 0, output := [.text answer.compact], files }
  | .error e, true =>
    let answer : Json := .object [("ok", .bool false), ("error", .text e.message)]
    { exit := 1, output := [.text answer.compact], files }
  | .ok path, false => { exit := 0, output := [.text path.text], files }
  | .error e, false => { exit := 1, errors := ["error: " ++ e.message], files }

def Invocation.run (files : FileTree) (i : Invocation) : Outcome :=
  let cwd := i.cwd.getD (.ofNames files.start)
  match i.command with
  | .resolveFile dir specifier => runResolveFile files (cwd.join dir) i.json specifier
  | .resolve specifier dir config => runResolve files cwd i.json specifier dir config
  | .build r =>
    if r.watch && i.json then
      { exit := 2, errors := ["error: --watch and --json cannot be combined"], files }
    else runBuild files cwd i.json r

/-- Runs the program. -/
def run (files : FileTree) (args : List String) : Outcome :=
  match Invocation.parse args with
  | .ok i => i.run files
  | .error r => r.outcome files

end Bundler.CommandLine
