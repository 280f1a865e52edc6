import Axiomata.CommandLine.Basic

/-! # The program -/

namespace Axiomata.CommandLine

def readFile (path : String) : IO (Except ReadFailure String) := do
  try
    match String.fromUTF8? (← IO.FS.readBinFile path) with
    | some text => return .ok text
    | none => return .error .notUtf8
  catch
    | .noFileOrDirectory .. => return .error .notFound
    | .inappropriateType _ 21 _ => return .error .isDirectory
    | .inappropriateType .. => return .error .notADirectory
    | .invalidArgument _ _ "name too long" => return .error .nameTooLong
    | .permissionDenied .. => return .error .denied
    | e => return .error (.other (toString e))

def Report.print (r : Report) : IO UInt32 := do
  IO.print r.out
  IO.eprint r.err
  return if r.success then 0 else 1

end Axiomata.CommandLine

open Axiomata.CommandLine in
def main (args : List String) : IO UInt32 := do
  match Options.command {} args with
  | .ok (.compile o) => (o.run (← o.files.mapM readFile)).print
  | _ => (respond (fun _ => .error .notFound) args).print
