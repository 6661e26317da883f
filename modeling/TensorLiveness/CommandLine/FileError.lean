/-
# File errors

Why a file cannot be read or written, in the words and numbers of the system.
-/

namespace TensorLiveness
namespace CommandLine

/-- Why a file cannot be read or written. -/
inductive FileError
  | notFound
  | notADirectory
  | isDirectory
  | nameTooLong
  | notUtf8
  | other (text : String)
deriving DecidableEq

/-- The text of a file error. -/
def FileError.message : FileError → String
  | .notFound => "No such file or directory (os error 2)"
  | .notADirectory => "Not a directory (os error 20)"
  | .isDirectory => "Is a directory (os error 21)"
  | .nameTooLong => "File name too long (os error 36)"
  | .notUtf8 => "stream did not contain valid UTF-8"
  | .other text => text

end CommandLine
end TensorLiveness
