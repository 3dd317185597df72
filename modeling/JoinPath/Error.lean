/-!
# Errors

Why a schema, a path, a statement or a configuration is refused. The wording is in
`Error.message`; `Error.chain` adds the causes that have a text of their own.
-/

namespace JoinPath

/-- A fault in the declarations of a schema. -/
inductive DeclarationError
  /-- An association between these tables pairs no columns. -/
  | noPairing (origin destination : String)
  /-- The table of a discriminator is not an end of the association. -/
  | notAnEnd (table association : String)
  /-- The association has discriminators on its other end. -/
  | otherEnd (association : String)
deriving DecidableEq, Repr

/-- Why a file could not be read as text. -/
inductive FileError
  | notFound
  | permissionDenied
  /-- A part of the path before the last is a file. -/
  | notADirectory
  | isDirectory
  | nameTooLong
  | notText
deriving DecidableEq, Repr

inductive Error
  /-- A placeholder of the text `sql` has no value. -/
  | unboundParameter (name sql : String)
  /-- A subquery brings another value for a parameter of its parent. -/
  | conflictingParameter (name : String)
  | unknownTable (name : String)
  /-- No association of this name leaves the table `origin`. -/
  | unknownAssociation (origin name : String)
  | unknownColumn (table column : String)
  | declaration (cause : DeclarationError)
  /-- The configuration is not well-formed, or not of the expected form. -/
  | malformedConfig
  | file (cause : FileError)
deriving DecidableEq, Repr

def DeclarationError.message : DeclarationError → String
  | noPairing origin destination =>
    "association " ++ origin ++ " -> " ++ destination ++ " declares no column pairing"
  | notAnEnd table association =>
    "discriminator table '" ++ table ++ "' is not an end of association '" ++ association ++ "'"
  | otherEnd association =>
    "association '" ++ association ++ "' already has discriminators on the other end"

def FileError.message : FileError → String
  | notFound => "No such file or directory (os error 2)"
  | permissionDenied => "Permission denied (os error 13)"
  | notADirectory => "Not a directory (os error 20)"
  | isDirectory => "Is a directory (os error 21)"
  | nameTooLong => "File name too long (os error 36)"
  | notText => "stream did not contain valid UTF-8"

namespace Error

def message : Error → String
  | unboundParameter name sql =>
    "No value supplied for the SQL parameter '" ++ name ++ "' for the SQL " ++ sql
  | conflictingParameter name =>
    "Parameter '" ++ name ++ "' bound to different values by a subquery and its parent"
  | unknownTable name => "Unknown table: '" ++ name ++ "'"
  | unknownAssociation origin name => "Unknown association: '" ++ origin ++ "." ++ name ++ "'"
  | unknownColumn table column => "Unknown column '" ++ column ++ "' in table '" ++ table ++ "'"
  | declaration cause => "Configuration error: " ++ cause.message
  | malformedConfig => "TOML error"
  | file cause => "IO error: " ++ cause.message

/-- The message and the causes below it. -/
def chain (e : Error) : List String :=
  match e with
  | file cause => [e.message, cause.message]
  | _ => [e.message]

end Error

end JoinPath
