import Axiomata.Proof.Replay

/-! # The text of a replayed proof -/

namespace Axiomata

namespace Trace

/-- A hole is marked if it is the whole term. -/
def showTerm : Term → String
  | .hole name _ => "?" ++ name
  | t => t.display

def showTerms (ts : List Term) : String := ", ".intercalate (ts.map showTerm)

def showSuggestion (σ : Suggestion) : String :=
  ", ".intercalate (σ.map fun b => b.1 ++ " := " ++ showTerm b.2)

/-- The lines of a step: the rule and its arguments, the goals behind it, and what goes with them. -/
def stepLines (number : Nat) (s : Step) (snapshot : Snapshot) : List String :=
  ["  " ++ toString number ++ ". " ++ s.rule.name ++
      (if s.args.isEmpty then "" else "(" ++ showTerms s.args ++ ")"),
    "     goals: " ++ (if snapshot.goals.isEmpty then "(none)" else showTerms snapshot.goals)] ++
    s.violations.map (fun p => "     diff violated: " ++ p.1 ++ " " ++ p.2) ++
    snapshot.suggestions.map fun σ => "     suggestion: " ++ showSuggestion σ

/-- The lines of a statement: its header, conditions, hypotheses and conclusions. -/
def statementLines (r : Rule) : List String :=
  ["thm " ++ r.name ++ "(" ++ ", ".intercalate (r.params.map fun p => p.type ++ " " ++ p.name) ++
      ")"] ++
    r.groups.map (fun g => "  #diff " ++ " ".intercalate g) ++
    r.hypotheses.map (fun t => "  -| " ++ showTerm t) ++
    r.conclusions.map fun t => "  |- " ++ showTerm t

end Trace

/-- The statement, each step with the goals behind it, and the verdict, without a final newline. -/
def Theorem.render (t : Theorem) : String :=
  let steps := (t.steps.zip t.snapshots).mapIdx fun i (s, snapshot) =>
    Trace.stepLines (i + 1) s snapshot
  "\n".intercalate <|
    Trace.statementLines t.statement ++ steps.flatten ++ [if t.valid then "  valid" else "  invalid"]

end Axiomata
