import Bundler.CommandLine.Arguments

/-!
# Help

The help text of a command is read off its usage.
-/

namespace Bundler.CommandLine

/-- Two columns; the second one begins behind the widest item of the first. -/
def columns (rows : List (String × String)) : List String :=
  let width := (rows.map (·.1.length)).foldl max 0
  rows.map fun (left, right) =>
    "  " ++ left ++ String.ofList (List.replicate (width - left.length + 2) ' ') ++ right

/-- A flag in the way it is written. -/
def Flag.form (f : Flag) : String :=
  (match f.short with
   | some c => String.ofList ['-', c, ',', ' ']
   | none => "    ") ++ "--" ++ f.name ++
  (match f.value with
   | some v => " <" ++ v ++ ">"
   | none => if f.repeats then "..." else "")

/-- An operand in the way it is shown. -/
def Operand.form (o : Operand) : String :=
  if o.repeats then "[" ++ o.name ++ "]..." else "<" ++ o.name ++ ">"

/-- A heading and what stands below it, if there is anything. -/
def headed (title : String) (lines : List String) : List String :=
  if lines.isEmpty then [] else "" :: (title ++ ":") :: lines

def Usage.summary (u : Usage) : String :=
  "Usage: " ++ u.name ++ (if u.flags.isEmpty then "" else " [OPTIONS]") ++
    String.join (u.operands.map fun o => " " ++ o.form) ++
    (if u.commands.isEmpty then "" else " <COMMAND>")

def Usage.help (u : Usage) : List String :=
  [u.about, "", u.summary] ++
  headed "Commands" (columns u.commands) ++
  headed "Arguments" (columns (u.operands.map fun o => (o.form, o.about))) ++
  headed "Options" (columns (u.flags.map fun f => (f.form, f.about)))

end Bundler.CommandLine
