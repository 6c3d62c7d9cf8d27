import Disassembly.CommandLine.Program

namespace Disassembly.CommandLine

/-- An error of the system with its number. -/
def systemError (code : UInt32) (details : String) : FileError :=
  .other (details ++ " (os error " ++ decimalText code.toNat ++ ")")

def fileError : IO.Error → FileError
  | .noFileOrDirectory _ _ _ => .notFound
  | .inappropriateType _ code details =>
    if code = 20 then .notDirectory else if code = 21 then .isDirectory else systemError code details
  | .invalidArgument _ code details =>
    if code = 36 then .nameTooLong else systemError code details
  | .permissionDenied _ code details => systemError code details
  | .resourceExhausted _ code details => systemError code details
  | .otherError code details => systemError code details
  | e => .other (toString e)

/-- The files of the machine that the program runs on. -/
def diskFiles : FileSystem IO where
  read path := do
    try return .ok (← IO.FS.readBinFile path)
    catch e => return .error (fileError e)
  write path text := do
    try
      IO.FS.writeFile path text
      return .ok ()
    catch e => return .error (fileError e)

end Disassembly.CommandLine

open Disassembly.CommandLine in
def main (args : List String) : IO UInt32 := do
  match ← (run diskFiles args).run with
  | .ok text =>
    IO.print text
    return 0
  | .error .usage =>
    IO.eprintln Failure.usage.message
    return Failure.usage.exitCode
  | .error e =>
    IO.eprintln ("Error: " ++ e.message)
    return e.exitCode
