import VertexLanes.Path

/-!
# Access to files

What a conversion needs of the files around it. The steps of a conversion are
written against this interface, so they can be run on real files and on a tree
of files that is a plain value.
-/

namespace VertexLanes

/-- Why a file cannot be read or written. -/
inductive FileError where
  /-- There is nothing under the path. -/
  | notFound
  /-- The path leads through a file. -/
  | notDirectory
  /-- The path leads to a directory. -/
  | isDirectory
  /-- A name or the path is longer than can be. -/
  | nameTooLong
  /-- The path contains the character that ends texts. -/
  | nulInPath
  /-- The file is not text. -/
  | notText
  /-- Anything else. -/
  | other (description : String)
deriving DecidableEq, Repr

/-- The description of an error. -/
def FileError.message : FileError → String
  | .notFound => "No such file or directory (os error 2)"
  | .notDirectory => "Not a directory (os error 20)"
  | .isDirectory => "Is a directory (os error 21)"
  | .nameTooLong => "File name too long (os error 36)"
  | .nulInPath => "file name contained an unexpected NUL byte"
  | .notText => "stream did not contain valid UTF-8"
  | .other description => description

/-- Reading and writing files as text. -/
class FileAccess (m : Type → Type) where
  /-- The content of a file. -/
  read : Path → m (Except FileError String)
  /-- Create a file or replace its content. -/
  write : Path → String → m (Except FileError Unit)
  /-- Whether there is a file or a directory under a path. -/
  isPresent : Path → m Bool

end VertexLanes
