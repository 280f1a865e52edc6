import Axiomata.Rule
import Axiomata.Term.Matching

/-! # Proof steps: a rule and its arguments -/

namespace Axiomata

structure Step where
  rule : Rule
  args : List Term
  /-- The pairs that the step leaves together although it has to keep them apart. -/
  violations : List (String × String) := []
deriving Inhabited

namespace Step

variable (s : Step)

def applied : Applied := s.rule.apply s.args

def conclusions : List Term := s.rule.conclusionsOf s.args

def hypotheses : List Term := s.rule.hypothesesOf s.args

def usesHoles : Bool := s.args.any Term.isHole

/-- The holes among the arguments, each standing for itself. -/
def ownHoles : Suggestion :=
  .ofList ((s.args.filter Term.isHole).map fun t => (t.head, t))

/-- The step with holes filled as suggested. -/
def materialize (σ : Suggestion) : Applied :=
  s.rule.apply <| s.args.map fun
    | .hole name type => (σ.get? name).getD (.hole name type)
    | t => t

/-- The ways in which a conclusion of the step can become a goal: the conclusion, the goal and the
terms for the holes. -/
def candidates (goals : List Term) : List (Term × Term × Suggestion) :=
  let conclusions := s.conclusions
  goals.flatMap fun goal => conclusions.filterMap fun conclusion =>
    (conclusion.match? goal).map fun σ => (conclusion, goal, σ)

def suggestions (goals : List Term) : List Suggestion := (s.candidates goals).map fun c => c.2.2

end Step

end Axiomata
