/-!
# File errors

Why a file or a directory cannot be read or written, as a cause, with the text in
which the system reports it.
-/

namespace FeatureAssembly

/-- **Why a file operation fails.** -/
inductive FileError where
  | notFound
  | notDirectory
  | isDirectory
  | exists
  | nameTooLong
  /-- A file holds bytes that are no text. -/
  | notText
  /-- A path holds the character that ends paths. -/
  | nulInPath
  /-- A failure that is known by its text only. -/
  | other (reason : String)
deriving DecidableEq

def FileError.message : FileError → String
  | .notFound => "No such file or directory (os error 2)"
  | .notDirectory => "Not a directory (os error 20)"
  | .isDirectory => "Is a directory (os error 21)"
  | .exists => "File exists (os error 17)"
  | .nameTooLong => "File name too long (os error 36)"
  | .notText => "stream did not contain valid UTF-8"
  | .nulInPath => "file name contained an unexpected NUL byte"
  | .other reason => reason

end FeatureAssembly
