/-!
# Errors of file access
-/

namespace GoContracts

/-- Why an access to the file tree fails. -/
inductive OsError where
  | notFound
  | exists
  | notDirectory
  | isDirectory
  | invalidArgument
  | nameTooLong
  | notEmpty
  | linkLoop
  | inputOutput
  | permissionDenied
  | noSpace
  /-- A path holds the character NUL. -/
  | nulInPath
  /-- A file is read as text but is none. -/
  | invalidUtf8
  deriving DecidableEq, Repr

/-- How an error is put. -/
def OsError.message : OsError → String
  | notFound => "No such file or directory (os error 2)"
  | .exists => "File exists (os error 17)"
  | inputOutput => "Input/output error (os error 5)"
  | permissionDenied => "Permission denied (os error 13)"
  | notDirectory => "Not a directory (os error 20)"
  | isDirectory => "Is a directory (os error 21)"
  | invalidArgument => "Invalid argument (os error 22)"
  | noSpace => "No space left on device (os error 28)"
  | nameTooLong => "File name too long (os error 36)"
  | notEmpty => "Directory not empty (os error 39)"
  | linkLoop => "Too many levels of symbolic links (os error 40)"
  | nulInPath => "file name contained an unexpected NUL byte"
  | invalidUtf8 => "stream did not contain valid UTF-8"

end GoContracts
