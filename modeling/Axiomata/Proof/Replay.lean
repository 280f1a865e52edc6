import Axiomata.Proof.Step

/-!
# Replay of a proof

A proof runs backwards: a step takes the goals that it concludes off the list and puts its hypotheses
there instead. A goal that is assumed needs no step, but is only taken off by a step that does
something else. The proof is valid if no goal is left.
-/

namespace Axiomata

/-- The state behind a step. -/
structure Snapshot where
  goals : List Term
  /-- The step took no goal off the list. -/
  useless : Bool
  suggestions : List Suggestion
deriving Inhabited

namespace Step

/-- The goals behind a step, if it takes one off the list. -/
def advance? (hypotheses goals : List Term) (s : Step) : Option (List Term) :=
  let assumed := hypotheses.map Term.canonical
  let proved := s.conclusions.map Term.canonical
  if goals.any fun g => proved.contains g.canonical then
    some (s.hypotheses.filter (fun h => !assumed.contains h.canonical) ++
      goals.filter fun g => !proved.contains g.canonical && !assumed.contains g.canonical)
  else none

/-- A useless step leaves the goals and suggests how to fill its holes. -/
def run (hypotheses goals : List Term) (s : Step) : Snapshot :=
  match s.advance? hypotheses goals with
  | some goals => ⟨goals, false, if s.usesHoles then [s.ownHoles] else []⟩
  | none => ⟨goals, true, s.suggestions goals⟩

end Step

/-- The snapshots of a list of steps. -/
def replay (hypotheses goals : List Term) : List Step → List Snapshot
  | [] => []
  | s :: ss =>
    let snapshot := s.run hypotheses goals
    snapshot :: replay hypotheses snapshot.goals ss

/-- The goals behind the last snapshot. -/
def remaining (goals : List Term) (snapshots : List Snapshot) : List Term :=
  (snapshots.getLast?.map Snapshot.goals).getD goals

/-- There is a snapshot for every step. -/
@[simp] theorem length_replay (hypotheses goals : List Term) (ss : List Step) :
    (replay hypotheses goals ss).length = ss.length := by
  induction ss generalizing goals with
  | nil => rfl
  | cons s ss ih => simp [replay, ih]

/-- A statement with a proof, which need not be valid. -/
structure Theorem where
  statement : Rule
  steps : List Step
deriving Inhabited

namespace Theorem

variable (t : Theorem)

def snapshots : List Snapshot := replay t.statement.hypotheses t.statement.conclusions t.steps

def valid : Bool := (remaining t.statement.conclusions t.snapshots).isEmpty

end Theorem

end Axiomata
