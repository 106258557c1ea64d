/-!
# File errors

Why the operating system or a file format turns an access down, and the words for it.
-/

namespace DirectCall

inductive FileError where
  | missing
  | alreadyThere
  | notDirectory
  | isDirectory
  | nameTooLong
  /-- A path with a zero character never gets to the operating system. -/
  | zeroInPath
  | notArchive
  deriving DecidableEq, Repr

def FileError.message : FileError → String
  | missing => "No such file or directory (os error 2)"
  | alreadyThere => "File exists (os error 17)"
  | notDirectory => "Not a directory (os error 20)"
  | isDirectory => "Is a directory (os error 21)"
  | nameTooLong => "File name too long (os error 36)"
  | zeroInPath => "file name contained an unexpected NUL byte"
  | notArchive => "invalid Zip archive: Could not find EOCD"

end DirectCall
