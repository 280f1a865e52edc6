import Axiomata.Decl.Parser
import Axiomata.Elaborate.Role

/-!
# Compiling one file

The declarations of a file are elaborated in turn against the tables that the file depends on. One
that fails is reported and adds nothing; the rest goes on.
-/

namespace Axiomata

/-- The state between two declarations of a file, with faults in the order in which they were found. -/
structure Elaboration where
  scope : Scope := {}
  faults : List Diagnostic := []
  marks : List Mark := []
deriving Inhabited

namespace Elaboration

/-- The state before the first declaration. -/
def start (deps : List Table) : Elaboration := { scope := { deps } }

def declare (e : Elaboration) (d : Decl) : Elaboration :=
  let outcome := e.scope.elaborate d
  { scope := e.scope.append outcome.symbols
    faults := e.faults ++ outcome.faults
    marks := e.marks ++ d.marks e.scope }

def run (e : Elaboration) (ds : List Decl) : Elaboration := ds.foldl declare e

@[simp] theorem run_nil (e : Elaboration) : e.run [] = e := rfl

@[simp] theorem run_cons (e : Elaboration) (d : Decl) (ds : List Decl) :
    e.run (d :: ds) = (e.declare d).run ds := rfl

/-- Declarations can be gone through in two parts. -/
theorem run_append (e : Elaboration) (ds es : List Decl) : e.run (ds ++ es) = (e.run ds).run es :=
  List.foldl_append

end Elaboration

/-- All that is kept of a compiled file. -/
structure CompiledFile where
  source : Source
  /-- The tables that the file was compiled against. -/
  deps : List Table
  outline : Outline
  table : Table
  /-- In the order of the source. -/
  faults : List Diagnostic
  marks : List Mark
deriving Inhabited

def Source.compile (s : Source) (deps : List Table) : CompiledFile :=
  let outline := s.outline
  let e := (Elaboration.start deps).run outline.decls
  { source := s
    deps
    outline
    table := e.scope.table
    faults := Diagnostic.sort s e.faults
    marks := e.marks }

/-- Why a file is rejected: how much is wrong with it, and what comes first. -/
inductive Rejection where
  | unreadable (count : Nat) (first : ParseError)
  | faulty (count : Nat) (first : Diagnostic)
deriving DecidableEq, Repr

namespace Rejection

def summary (s : Source) : Rejection → String
  | .unreadable count _ => toString count ++ " parse errors in " ++ s.name
  | .faulty count _ => toString count ++ " errors in " ++ s.name

def detail (s : Source) : Rejection → String
  | .unreadable _ first => first.render s
  | .faulty _ first => first.describe s

end Rejection

namespace CompiledFile

variable (f : CompiledFile)

def name : String := f.source.name

def parseErrors : List ParseError := f.outline.errors

def clean : Bool := f.parseErrors.isEmpty && f.faults.isEmpty

/-- Parse errors come before all other faults. -/
def rejection? : Option Rejection :=
  match f.parseErrors, f.faults with
  | e :: _, _ => some (.unreadable f.parseErrors.length e)
  | [], d :: _ => some (.faulty f.faults.length d)
  | [], [] => none

def theorems : List Theorem :=
  f.table.symbols.filterMap fun
    | .thm t => some t
    | _ => none

def roles : List Mark := Mark.resolve f.source.tokens f.marks

end CompiledFile

/-- The verdict on a text that stands alone. -/
def check (text : String) : Source × Option Rejection :=
  let s := Source.ofText "<input>" text
  (s, (s.compile []).rejection?)

end Axiomata
