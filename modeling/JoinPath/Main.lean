import JoinPath.Command.Run
/-!
# The program

Reads the arguments and the configuration file, prints the answer, and ends with 0 if there is one,
with 1 if the run fails and with 2 if the arguments are refused.
-/

namespace JoinPath

/-- How the program is called. -/
def usageText : String :=
  Command.unlines
    ["Resolve association paths into SQL joins",
      "",
      "Usage: sqlpath [--config FILE] [--verbose] explain TABLE [PATHS]...",
      "       sqlpath [--config FILE] [--verbose] schema",
      "",
      "Options of explain: --outer --fetch --alias ALIAS --filter COLUMN=VALUE,...",
      "                    --dialect DIALECT --format table|json"]

/-- The configuration file where none is given. -/
def defaultConfigPath : IO String := do
  match ← IO.getEnv "SQLPATH_CONFIG" with
  | some path => return path
  | none =>
    match ← IO.getEnv "XDG_CONFIG_HOME" with
    | some dir => return dir ++ "/sqlpath/config.toml"
    | none => return (← IO.getEnv "HOME").getD "" ++ "/.config/sqlpath/config.toml"

/-- Why the system could not read a file. Its codes come with either sign. -/
def fileError : IO.Error → FileError
  | .permissionDenied .. => .permissionDenied
  | .inappropriateType _ code _ => if code = 20 ∨ -code = 20 then .notADirectory else .isDirectory
  | .invalidArgument .. => .nameTooLong
  | _ => .notFound

/-- The content of a file, or why it cannot be read. -/
def readContent (path : String) : IO (Except FileError ByteArray) := do
  try
    return .ok (← IO.FS.readBinFile path)
  catch e =>
    return .error (fileError e)

/-- Answers arguments that were read. -/
def answer (i : Command.Invocation) : IO UInt32 := do
  let path ← match i.config with
    | some path => pure path
    | none => defaultConfigPath
  match i.run (← readContent path) with
  | .ok text => IO.print text; return 0
  | .error failure => IO.eprintln failure.message; return 1

end JoinPath

open JoinPath in
def main (args : List String) : IO UInt32 := do
  match Command.Invocation.ofArgs args with
  | .ok i => answer i
  | .error .version => IO.print Command.versionText; return 0
  | .error .help => IO.print usageText; return 0
  | .error .usage => IO.eprint usageText; return 2
