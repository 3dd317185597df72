import JoinPath.Command.Arguments
import JoinPath.Sql.Dialect
/-!
# Invocations

What the arguments of the program ask for. The options `config` and `verbose` may stand before or
after the command; of two files the one after it is meant.
-/

namespace JoinPath.Command

inductive Format
  | table | json
deriving DecidableEq, Repr

def Format.ofName? : String → Option Format
  | "table" => some table
  | "json" => some json
  | _ => none

structure ExplainOptions where
  table : String
  /-- Dotted paths; a step may name an alias after a colon. -/
  paths : List String
  outer : Bool
  fetch : Bool
  tableAlias : Option String
  /-- Restrictions `column=value`. -/
  filters : List String
  dialect : Option Dialect
  format : Format
deriving DecidableEq, Repr

inductive Action
  /-- Shows the joins and the text for paths from a table. -/
  | explain (options : ExplainOptions)
  /-- Lists tables and associations. -/
  | schema
deriving DecidableEq, Repr

structure Invocation where
  /-- The configuration file; the usual one if absent. -/
  config : Option String
  verbose : Bool
  action : Action
deriving DecidableEq, Repr

def isDialect (s : String) : Bool := (Dialect.ofText s).toOption.isSome

/-- The options of every command. -/
def commonOptions : List OptionSpec :=
  [{ name := "config", short := some 'c', kind := .value, accepts := fun s => s != "" },
    { name := "verbose", short := some 'v', kind := .flag },
    { name := "help", short := some 'h', kind := .halt .help }]

def explainOptions : List OptionSpec :=
  [{ name := "outer", short := none, kind := .flag },
    { name := "fetch", short := none, kind := .flag },
    { name := "alias", short := some 'a', kind := .value },
    { name := "filter", short := none, kind := .values },
    { name := "dialect", short := some 'd', kind := .value, accepts := isDialect },
    { name := "format", short := some 'f', kind := .value,
      accepts := fun s => (Format.ofName? s).isSome }]

def mainSpec : CommandSpec where
  options := { name := "version", short := some 'V', kind := .halt .version } :: commonOptions
  commands := ["explain", "schema", "help"]
  positionals := false

def explainSpec : CommandSpec := ⟨explainOptions ++ commonOptions, [], true⟩

def schemaSpec : CommandSpec := ⟨commonOptions, [], false⟩

/-- The parts of a value between commas. -/
def commaParts (s : String) : List String := (Text.splitAll ',' s.toList).map String.ofList

/-- The action `explain`, which needs a table. -/
def explainOf (a : Arguments) : Except Halt Action :=
  match a.positionals with
  | [] => .error .usage
  | table :: paths => .ok (.explain {
      table := table
      paths := paths
      outer := a.has "outer"
      fetch := a.has "fetch"
      tableAlias := a.value? "alias"
      filters := (a.values "filter").flatMap commaParts
      dialect := (a.value? "dialect").bind fun s => (Dialect.ofText s).toOption
      format := ((a.value? "format").bind Format.ofName?).getD .table })

/-- The action of a command with its own arguments. -/
def actionOf (command : String) (args : List String) : Except Halt (Arguments × Action) := do
  match command with
  | "explain" =>
    let (a, _) ← scan explainSpec (.empty, none) args
    return (a, ← explainOf a)
  | "schema" =>
    let (a, _) ← scan schemaSpec (.empty, none) args
    return (a, .schema)
  | _ => throw (if args.all (["explain", "schema", "help"].contains ·) then .help else .usage)

namespace Invocation

/-- Reads the arguments of the program. -/
def ofArgs (args : List String) : Except Halt Invocation := do
  let (outer, command) ← scan mainSpec (.empty, none) args
  match command with
  | none => throw .usage
  | some (command, rest) =>
    let (inner, action) ← actionOf command rest
    return {
      config := (inner.value? "config").or (outer.value? "config")
      verbose := inner.has "verbose" || outer.has "verbose"
      action := action }

end Invocation

end JoinPath.Command
