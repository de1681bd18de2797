/-!
# Why a file operation failed
-/

namespace SymbolicPaths

/-- Why a file operation failed. -/
inductive FileFault where
  /-- Nothing stands at the path. -/
  | missing
  /-- A file stands where a directory is needed. -/
  | notDirectory
  /-- A directory stands where a file is needed. -/
  | isDirectory
  /-- The path leads to a directory by `.` or `..`, which cannot be given away. -/
  | busy
  /-- A name or the whole path is too long. -/
  | tooLong
  /-- The path has a zero character. -/
  | zeroInPath
  /-- The content is no text. -/
  | notText
  /-- Any other reason. -/
  | other (reason : String)
  deriving DecidableEq

/-- The text of a fault. -/
def FileFault.message : FileFault → String
  | .missing => "No such file or directory (os error 2)"
  | .notDirectory => "Not a directory (os error 20)"
  | .isDirectory => "Is a directory (os error 21)"
  | .busy => "Device or resource busy (os error 16)"
  | .tooLong => "File name too long (os error 36)"
  | .zeroInPath => "file name contained an unexpected NUL byte"
  | .notText => "stream did not contain valid UTF-8"
  | .other reason => reason

end SymbolicPaths
