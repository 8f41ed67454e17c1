/-
# `AndroidFonts.Tree.Error` — why the file system refuses

Each cause has the text that a system reports for it.
-/
namespace AndroidFonts

inductive IoError where
  | notFound
  | alreadyExists
  | notDirectory
  | isDirectory
  /-- A path that ends in no name cannot be replaced. -/
  | busy
  | tooManyLinks
  | nameTooLong
  | nulInPath
  /-- A path that the system itself refuses. -/
  | invalidArgument
  /-- The bytes of a file are no UTF-8. -/
  | notText
  /-- A path without parent directory names no file. -/
  | noParent
  /-- A file that was to be replaced is gone. -/
  | disappeared
  /-- The directory a temporary file was to be made in does not take one. -/
  | temporaryFile (cause : IoError)
deriving Repr, DecidableEq

namespace IoError

def message : IoError → String
  | .notFound => "No such file or directory (os error 2)"
  | .alreadyExists => "File exists (os error 17)"
  | .notDirectory => "Not a directory (os error 20)"
  | .isDirectory => "Is a directory (os error 21)"
  | .busy => "Device or resource busy (os error 16)"
  | .tooManyLinks => "Too many levels of symbolic links (os error 40)"
  | .nameTooLong => "File name too long (os error 36)"
  | .nulInPath => "file name contained an unexpected NUL byte"
  | .invalidArgument => "Invalid argument (os error 22)"
  | .notText => "stream did not contain valid UTF-8"
  | .noParent => "Path has no parent directory"
  | .disappeared => "file disappeared"
  | .temporaryFile cause => cause.message ++ " at path of the temporary file"

/-- Whether the cause is that something is missing. -/
def isNotFound : IoError → Bool
  | .notFound => true
  | _ => false

end IoError

end AndroidFonts
