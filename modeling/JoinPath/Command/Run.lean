import JoinPath.Command.Filter
import JoinPath.Command.Invocation
import JoinPath.Command.Path
import JoinPath.Command.Report
import JoinPath.Config.Reader
/-!
# Running the program

The answer of the program to its arguments and the content of its configuration file: what it
prints, or the chain of causes why it fails.
-/

namespace JoinPath.Command

/-- Why a run fails. -/
inductive Failure
  | loading (cause : Error)
  | building (cause : Error)
  | path (path : String) (cause : Error)
  /-- A filter has no equals sign. -/
  | filter (text : String)
  | statement (cause : Error)

/-- The causes of a failure, the outermost first. -/
def Failure.chain : Failure → List String
  | loading cause => "loading configuration" :: cause.chain
  | building cause => "building schema" :: cause.chain
  | path p cause => ("resolving path '" ++ p ++ "'") :: cause.chain
  | filter text => ["filter '" ++ text ++ "' is not column=value"]
  | statement cause => cause.chain

def Failure.message (f : Failure) : String := "Error: " ++ ": ".intercalate f.chain

/-- Joins along the paths, one after the other. -/
def joinPaths (s : Session) (kind : JoinKind) (fetch : Bool) : List String → Except Failure Session
  | [] => .ok s
  | path :: paths => do
    let steps ← (typedPath s.schema s.table kind path).mapError (.path path)
    joinPaths (s.joinTo steps fetch) kind fetch paths

/-- The restrictions of filters. -/
def restrictions (filters : List String) : Except Failure (List Criteria) :=
  filters.mapM fun f => match filter? f with
    | some c => .ok c
    | none => .error (.filter f)

/-- Explains the joins of paths from a table. -/
def explain (schema : Schema) (settings : Settings) (o : ExplainOptions) :
    Except Failure String := do
  let table ← (schema.tableByName o.table).mapError .statement
  let s := (Session.new schema table).setAlias (o.tableAlias.getD settings.tableAlias)
  let s ← joinPaths s (if o.outer then .left else .inner) o.fetch o.paths
  let (result, s) := (s.setFilter (← restrictions o.filters)).build []
    (o.dialect.getD settings.dialect)
  let st ← result.mapError .statement
  match o.format with
  | .table => return statementText s st
  | .json => return (statementJson s st).pretty ++ "\n"

/-- Runs an invocation on the content of its configuration file. -/
def Invocation.run (i : Invocation) (file : Except FileError ByteArray) :
    Except Failure String := do
  let config ← (Config.ofFile file).mapError .loading
  let schema ← config.schema.toSchema.mapError .building
  match i.action with
  | .explain options => explain schema config.settings options
  | .schema => return schemaText schema

/-- The name and the version of the program. -/
def versionText : String := "sqlpath 0.1.0\n"

end JoinPath.Command
