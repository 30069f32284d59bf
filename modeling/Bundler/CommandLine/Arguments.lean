import Bundler.Text.Split

/-!
# Arguments

How a list of arguments is read by the usage of a command: flags, with or without values, and
operands. Flags can be written long, or short and one behind the other; behind `--` there are
operands only.
-/

namespace Bundler.CommandLine

structure Flag where
  name : String
  short : Option Char := none
  /-- What its value is called; a switch has no value. -/
  value : Option String := none
  /-- It may be given more than once. -/
  repeats : Bool := false
  accepts : String → Bool := fun _ => true
  /-- What stands in help texts. -/
  about : String

structure Operand where
  name : String
  /-- Any number may be given, also none. -/
  repeats : Bool := false
  accepts : String → Bool := fun _ => true
  about : String

/-- What can stand behind the name of a command. -/
structure Usage where
  /-- The name of the command, behind those of the commands that it belongs to. -/
  name : String
  about : String
  flags : List Flag
  operands : List Operand := []
  /-- The commands that belong to it. -/
  commands : List (String × String) := []

/-- The operand at a place. One that repeats holds all places behind it. -/
def Usage.operandAt? (u : Usage) (place : Nat) : Option Operand :=
  u.operands[place]?.or (u.operands.getLast?.filter (·.repeats))

/-- Why arguments do not lead to a command. -/
inductive Refusal
  | help (u : Usage)
  | version
  | misuse (reason : String)

/-- What was given: flags with their values, and operands. A switch has an empty value. -/
structure Given where
  flags : List (String × String) := []
  operands : List String := []

def unexpected {α : Type} (arg : String) : Except Refusal α :=
  .error (.misuse ("unexpected argument '" ++ arg ++ "'"))

namespace Given

def has (g : Given) (name : String) : Bool := g.flags.any (·.1 = name)

/-- The values of a flag, in the order in which they were given. -/
def values (g : Given) (name : String) : List String :=
  (g.flags.filter (·.1 = name)).map (·.2)

def value? (g : Given) (name : String) : Option String := (g.values name).getLast?

/-- Takes in a flag. -/
def add (g : Given) (u : Usage) (f : Flag) (value : String) : Except Refusal Given :=
  if f.name = "help" then .error (.help u)
  else if f.name = "version" then .error .version
  else if !f.accepts value then
    .error (.misuse ("invalid value '" ++ value ++ "' for '--" ++ f.name ++ "'"))
  else if !f.repeats && g.has f.name then
    .error (.misuse ("'--" ++ f.name ++ "' cannot be used more than once"))
  else .ok { g with flags := g.flags ++ [(f.name, value)] }

/-- Takes in an operand, if the command has one at its place and it is accepted. -/
def addOperand (g : Given) (u : Usage) (text : String) : Except Refusal Given :=
  match u.operandAt? g.operands.length with
  | none => unexpected text
  | some o =>
    if o.accepts text then .ok { g with operands := g.operands ++ [text] }
    else .error (.misuse ("invalid value '" ++ text ++ "' for '<" ++ o.name ++ ">'"))

end Given

def valueMissing {α : Type} (f : Flag) : Except Refusal α :=
  .error (.misuse ("a value is required for '--" ++ f.name ++ "'"))

/-- Whether an argument is not an operand. -/
def isFlagLike (arg : String) : Bool :=
  match arg.toList with
  | '-' :: _ :: _ => true
  | _ => false

/-- Reads short flags that are written together. A flag at the end may lack its value. -/
def readShort (u : Usage) : List Char → Given → Except Refusal (Given × Option Flag)
  | [], g => .ok (g, none)
  | c :: cs, g =>
    match u.flags.find? (·.short = some c) with
    | none => unexpected (String.ofList ['-', c])
    | some f =>
      if f.value.isNone then do readShort u cs (← g.add u f "")
      else
        match cs with
        | [] => .ok (g, some f)
        | '=' :: v => do return (← g.add u f (String.ofList v), none)
        | v => do return (← g.add u f (String.ofList v), none)

/-- Reads a long flag. It may lack its value. -/
def readLong (u : Usage) (text : List Char) (g : Given) : Except Refusal (Given × Option Flag) :=
  let (name, value) := match Text.splitOnce? '=' text with
    | some (name, value) => (String.ofList name, some (String.ofList value))
    | none => (String.ofList text, none)
  match u.flags.find? (·.name = name) with
  | none => unexpected ("--" ++ name)
  | some f =>
    match f.value, value with
    | none, none => do return (← g.add u f "", none)
    | none, some v => unexpected v
    | some _, some v => do return (← g.add u f v, none)
    | some _, none => .ok (g, some f)

/-- What an argument is. -/
inductive Shape
  | separator
  | long (text : List Char)
  | short (flags : List Char)
  | operand

def shape (arg : String) : Shape :=
  match arg.toList with
  | ['-', '-'] => .separator
  | '-' :: '-' :: text => .long text
  | '-' :: c :: cs => .short (c :: cs)
  | _ => .operand

/-- Reads arguments. If the command has commands of its own, the first operand and what follows
it are left. -/
def readArguments (u : Usage) : List String → Given → Except Refusal (Given × List String)
  | [], g => .ok (g, [])
  | arg :: rest, g =>
    let continueWith (r : Except Refusal (Given × Option Flag)) :
        Except Refusal (Given × List String) := do
      match ← r with
      | (g, none) => readArguments u rest g
      | (g, some f) =>
        match rest with
        | [] => valueMissing f
        | value :: rest =>
          if isFlagLike value then valueMissing f else do
            readArguments u rest (← g.add u f value)
    match shape arg with
    | .separator => do return (← rest.foldlM (·.addOperand u ·) g, [])
    | .long text => continueWith (readLong u text g)
    | .short flags => continueWith (readShort u flags g)
    | .operand =>
      if u.commands.isEmpty then do readArguments u rest (← g.addOperand u arg)
      else .ok (g, arg :: rest)

/-- Reads the arguments of a command without commands of its own. -/
def Usage.read (u : Usage) (args : List String) : Except Refusal Given := do
  let (g, _) ← readArguments u args {}
  match u.operands[g.operands.length]? with
  | some o =>
    if o.repeats then return g
    else .error (.misuse ("'<" ++ o.name ++ ">' was not provided"))
  | none => return g

end Bundler.CommandLine
