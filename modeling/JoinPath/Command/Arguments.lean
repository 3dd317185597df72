import JoinPath.Text.Split
/-!
# Arguments

Options and positional arguments in the usual notation: `--name value`, `--name=value`, short
options in clusters, and `--` before arguments that only look like options. Arguments are taken
from left to right, and the first fault ends the reading.
-/

namespace JoinPath.Command

/-- Why reading arguments ended early. -/
inductive Halt
  /-- The arguments are refused. -/
  | usage
  | help
  | version
deriving DecidableEq, Repr

/-- What an option takes. -/
inductive OptionKind
  /-- Nothing; it is given at most once. -/
  | flag
  /-- One value; it is given at most once. -/
  | value
  /-- One value each time. -/
  | values
  /-- Nothing; it ends the reading. -/
  | halt (reason : Halt)
deriving DecidableEq, Repr

structure OptionSpec where
  name : String
  short : Option Char
  kind : OptionKind
  /-- Which values are accepted. -/
  accepts : String → Bool := fun _ => true

/-- The options that a command knows, the commands below it, and whether it takes arguments that
are no options. -/
structure CommandSpec where
  options : List OptionSpec
  commands : List String
  positionals : Bool

/-- What was given: the values of options by their names, and the other arguments. -/
structure Arguments where
  options : List (String × String)
  positionals : List String

namespace Arguments

def empty : Arguments := ⟨[], []⟩

def has (a : Arguments) (name : String) : Bool := a.options.any (·.1 == name)

def value? (a : Arguments) (name : String) : Option String := a.options.lookup name

def values (a : Arguments) (name : String) : List String :=
  (a.options.filter (·.1 == name)).map Prod.snd

/-- Takes an option with its value, which is empty if it has none. -/
def take (a : Arguments) (spec : OptionSpec) (value : String) : Except Halt Arguments :=
  let added : Arguments := { a with options := a.options ++ [(spec.name, value)] }
  match spec.kind with
  | .halt reason => .error reason
  | .values => if spec.accepts value then .ok added else .error .usage
  | .flag | .value =>
    if a.has spec.name ∨ spec.accepts value = false then .error .usage else .ok added

end Arguments

/-- Arguments with an option that still waits for its value. -/
abbrev Progress := Arguments × Option OptionSpec

/-- Whether an option has a value. -/
def OptionSpec.takesValue (spec : OptionSpec) : Bool :=
  spec.kind = .value || spec.kind = .values

/-- Takes `--name` or `--name=value`. -/
def takeLong (specs : List OptionSpec) (a : Arguments) (text : List Char) :
    Except Halt Progress := do
  let (name, value) := match Text.splitFirst? '=' text with
    | some (name, value) => (name, some (String.ofList value))
    | none => (text, none)
  match specs.find? fun spec => spec.name == String.ofList name, value with
  | none, _ => throw .usage
  | some spec, some value =>
    if spec.takesValue then return (← a.take spec value, none) else throw .usage
  | some spec, none =>
    if spec.takesValue then return (a, some spec) else return (← a.take spec "", none)

/-- Takes short options written together; the rest after one with a value is its value. -/
def takeShort (specs : List OptionSpec) (a : Arguments) : List Char → Except Halt Progress
  | [] => .ok (a, none)
  | c :: rest =>
    match specs.find? fun spec => spec.short == some c with
    | none => .error .usage
    | some spec =>
      if spec.takesValue then
        match rest with
        | [] => .ok (a, some spec)
        | '=' :: value => (a.take spec (.ofList value)).map fun a => (a, none)
        | value => (a.take spec (.ofList value)).map fun a => (a, none)
      else
        match a.take spec "" with
        | .ok a => takeShort specs a rest
        | .error e => .error e

/-- Takes the arguments of a command. They end at the name of a command below it. -/
def scan (spec : CommandSpec) :
    Progress → List String → Except Halt (Arguments × Option (String × List String))
  | (a, none), [] => .ok (a, none)
  | (_, some _), [] => .error .usage
  | (a, pending), arg :: rest =>
    match arg.toList, pending with
    | ['-', '-'], none =>
      if spec.positionals ∨ rest = [] then
        .ok ({ a with positionals := a.positionals ++ rest }, none)
      else .error .usage
    | '-' :: '-' :: text, none => do scan spec (← takeLong spec.options a text) rest
    | '-' :: c :: text, none => do scan spec (← takeShort spec.options a (c :: text)) rest
    | '-' :: _ :: _, some _ => .error .usage
    | _, some opt => do scan spec (← a.take opt arg, none) rest
    | _, none =>
      if spec.commands.contains arg then .ok (a, some (arg, rest))
      else if spec.positionals then
        scan spec ({ a with positionals := a.positionals ++ [arg] }, none) rest
      else .error .usage

end JoinPath.Command
