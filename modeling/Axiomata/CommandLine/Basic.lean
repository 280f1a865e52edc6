import Axiomata.Development.Basic
import Axiomata.Proof.Trace

/-!
# The command line

Arguments are read from left to right. All files are read before the first one is compiled.
-/

namespace Axiomata.CommandLine

def version : String := "0.1.0"

def usage : String :=
  "Usage: axc [OPTIONS] <FILE>...\n\n" ++
  "Compiles the files in the given order. Each file sees the declarations of the files before it.\n\n" ++
  "Options:\n" ++
  "      --trace      Print the proof trace of every theorem\n" ++
  "  -h, --help       Print help\n" ++
  "  -v, --version    Print version\n"

structure Options where
  trace : Bool := false
  files : List String := []
deriving DecidableEq, Repr, Inhabited

inductive Command where
  | help
  | version
  | compile (options : Options)
deriving DecidableEq, Repr

inductive UsageError where
  | unknownOption (flag : String)
  | noFiles
deriving DecidableEq, Repr

def UsageError.message : UsageError → String
  | .unknownOption flag => "unknown option `" ++ flag ++ "`\n\n" ++ usage
  | .noFiles => "no input files\n\n" ++ usage

/-- Reads the arguments behind those that gave the options. Help, version and an unknown option end
the reading. -/
def Options.command (o : Options) : List String → Except UsageError Command
  | [] => if o.files.isEmpty then .error .noFiles else .ok (.compile o)
  | arg :: args =>
    if arg == "-h" || arg == "--help" then .ok .help
    else if arg == "-v" || arg == "--version" then .ok .version
    else if arg == "--trace" then { o with trace := true }.command args
    else if arg.toList.head? == some '-' then .error (.unknownOption arg)
    else { o with files := o.files ++ [arg] }.command args

/-- Why a file cannot be read. -/
inductive ReadFailure where
  | notFound
  | denied
  | notADirectory
  | isDirectory
  | nameTooLong
  | notUtf8
  | other (reason : String)
deriving DecidableEq, Repr

def ReadFailure.message : ReadFailure → String
  | .notFound => "No such file or directory (os error 2)"
  | .denied => "Permission denied (os error 13)"
  | .notADirectory => "Not a directory (os error 20)"
  | .isDirectory => "Is a directory (os error 21)"
  | .nameTooLong => "File name too long (os error 36)"
  | .notUtf8 => "stream did not contain valid UTF-8"
  | .other reason => reason

/-- What a run prints, and whether it succeeds. -/
structure Report where
  out : String := ""
  err : String := ""
  success : Bool := true
deriving DecidableEq, Repr, Inhabited

namespace Report

instance : Append Report :=
  ⟨fun a b => ⟨a.out ++ b.out, a.err ++ b.err, a.success && b.success⟩⟩

def failure (text : String) : Report := { err := "Error: " ++ text ++ "\n", success := false }

end Report

/-- What is printed of a compiled file. -/
def fileReport (trace : Bool) (f : CompiledFile) : Report where
  out := if trace then String.join (f.theorems.map fun t => t.render ++ "\n\n") else ""
  err := String.join (f.parseErrors.map fun e => e.render f.source ++ "\n") ++
    String.join (f.faults.map fun d => d.render f.source ++ "\n")
  success := f.clean

/-- Compiles sources in turn. -/
def compileAll (trace : Bool) (d : Development) : List Source → Report
  | [] => {}
  | s :: ss =>
    let d := d.compile s
    ((d.file? s.name).map (fileReport trace)).getD {} ++ compileAll trace d ss

/-- The texts of the files, or the first failure to read one. -/
def gather : List (String × Except ReadFailure String) → Except (String × ReadFailure) (List Source)
  | [] => .ok []
  | (path, .error failure) :: _ => .error (path, failure)
  | (path, .ok text) :: rest => (gather rest).map (.ofText path text :: ·)

/-- Compiles files, given what reading each of them gave. -/
def Options.run (o : Options) (contents : List (Except ReadFailure String)) : Report :=
  match gather (o.files.zip contents) with
  | .error (path, failure) =>
    .failure ("failed to read `" ++ path ++ "`\n\nCaused by:\n    " ++ failure.message)
  | .ok sources => compileAll o.trace (Development.arrange {} o.files) sources

/-- Carries out the arguments, given what reading a path gives. -/
def respond (read : String → Except ReadFailure String) (args : List String) : Report :=
  match Options.command {} args with
  | .error e => .failure e.message
  | .ok .help => { out := usage }
  | .ok .version => { out := "axc " ++ version ++ "\n" }
  | .ok (.compile o) => o.run (o.files.map read)

end Axiomata.CommandLine
