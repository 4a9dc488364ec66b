namespace Reflector

inductive FileError where
  | missing
  | isDirectory
  | notDirectory
  | taken
  | notText
  /-- Any other reason, in the words of the system. -/
  | other (text : String)
deriving DecidableEq, Repr

namespace FileError

def message : FileError → String
  | missing => "No such file or directory (os error 2)"
  | isDirectory => "Is a directory (os error 21)"
  | notDirectory => "Not a directory (os error 20)"
  | taken => "File exists (os error 17)"
  | notText => "stream did not contain valid UTF-8"
  | other text => text

end FileError

inductive Failure where
  /-- No class name can be read off this header. -/
  | unnamedClass (header : String)
  /-- The operation on the file or directory at this path failed. -/
  | file (path : String) (error : FileError)
  /-- The configuration at this path is not well-formed. -/
  | config (path : String)
deriving DecidableEq, Repr

namespace Failure

def message : Failure → String
  | unnamedClass header =>
    "could not extract a class name from header `" ++ header ++ "`"
  | file path error => "IO error on " ++ path ++ ": " ++ error.message
  | config path => "invalid config " ++ path ++ ": "

end Failure

end Reflector
