import Axiomata.Development.File

/-!
# The log

What happened while a file was compiled, read off from what is kept of it.
-/

namespace Axiomata

inductive Severity where
  | info
  | debug
  | trace
deriving DecidableEq, Repr, Inhabited

namespace Severity

def label : Severity → String
  | .info => "INFO"
  | .debug => "DEBUG"
  | .trace => "TRACE"

def rank : Severity → Nat
  | .info => 0
  | .debug => 1
  | .trace => 2

end Severity

inductive Event where
  | compiled (file : String) (deps symbols parseErrors faults : Nat)
  | unreadable (text : String)
  | stepped (rule : String) (goals : List Term)
  | replayed (thm : String) (steps : Nat) (valid : Bool)
  | matched (pattern target : Term)

namespace Event

def severity : Event → Severity
  | .compiled .. => .info
  | .unreadable _ | .stepped .. | .replayed .. => .debug
  | .matched .. => .trace

def message : Event → String
  | .compiled file deps symbols parseErrors faults =>
    "compiled " ++ file ++ ": " ++ toString deps ++ " deps, " ++ toString symbols ++ " symbols, " ++
      toString parseErrors ++ " parse errors, " ++ toString faults ++ " errors"
  | .unreadable text => text
  | .stepped rule goals =>
    "after " ++ rule ++ ": [" ++ ", ".intercalate (goals.map Term.display) ++ "]"
  | .replayed thm steps valid =>
    "theorem " ++ thm ++ ": " ++ toString steps ++ " steps, valid = " ++
      (if valid then "true" else "false")
  | .matched pattern target => "unified " ++ pattern.display ++ " with " ++ target.display

def render (e : Event) : String := e.severity.label ++ " " ++ e.message

/-- The events that are at least as severe as asked for. -/
def select (asked : Severity) (es : List Event) : List Event :=
  es.filter (·.severity.rank ≤ asked.rank)

end Event

/-- A match is logged for each suggestion of a step against a list of goals. -/
def Step.matchEvents (s : Step) (goals : List Term) : List Event :=
  (s.candidates goals).map fun c => .matched c.1 c.2.1

/-- The events of replaying steps. Only a useless step looks for matches. -/
def replayEvents (hypotheses goals : List Term) : List Step → List Event
  | [] => []
  | s :: ss =>
    let snapshot := s.run hypotheses goals
    (if snapshot.useless then s.matchEvents goals else []) ++
      .stepped s.rule.name snapshot.goals :: replayEvents hypotheses snapshot.goals ss

def Theorem.events (t : Theorem) : List Event :=
  replayEvents t.statement.hypotheses t.statement.conclusions t.steps ++
    [.replayed t.statement.name t.steps.length t.valid]

def Source.readEvents (s : Source) : List Event :=
  s.outline.errors.map fun e => .unreadable (e.render s)

namespace CompiledFile

variable (f : CompiledFile)

/-- The events of reading and elaborating a file. -/
def innerEvents : List Event := f.source.readEvents ++ f.theorems.flatMap Theorem.events

def events : List Event :=
  f.innerEvents ++ [.compiled f.name f.deps.length f.table.symbols.length f.parseErrors.length
    f.faults.length]

end CompiledFile

end Axiomata
