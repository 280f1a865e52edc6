import Axiomata.Elaborate.Header

/-!
# Proofs as written

A step names a rule and gives its arguments. An argument that is missing, does not elaborate or has
the wrong type becomes a hole, so that the step can still be replayed.
-/

namespace Axiomata

/-- The arguments that have the types of their parameters. -/
def Rule.slots (r : Rule) (terms : List (Option Term)) : List (Option Term) :=
  r.params.mapIdx fun i p => (terms.getD i none).filter (·.type == p.type)

/-- The faults of arguments with wrong types. -/
def Rule.misfits (r : Rule) (args : List Expr) (terms : List (Option Term)) : List Diagnostic :=
  (r.params.zip (args.zip terms)).filterMap fun (p, e, t) =>
    if t.any (·.type != p.type) then some ⟨.argType, e.root⟩ else none

/-- The fault of a wrong number of arguments. -/
def Rule.countFault (r : Rule) (root : Token) (args : List Expr) : List Diagnostic :=
  if r.params.length < args.length then [⟨.tooManyArgs, root⟩]
  else if args.length < r.params.length then [⟨.tooFewArgs, root⟩]
  else []

/-- The step in the proof of a statement, with the pairs that it leaves together. -/
def Step.within (statement rule : Rule) (args : List Term) : Step where
  rule
  args
  violations := (rule.distinctOf args).violations statement.distinct statement.paramNames

/-- The step that an expression writes in the proof of a statement, unless it names no rule. -/
def Expr.toStep (scope : Scope) (statement : Rule) : Expr → Option Step × List Diagnostic
  | .node root args =>
    match scope.rule? root.text with
    | none => (none, [⟨.unknownRule, root⟩])
    | some rule =>
      let inner := instantiateAll scope statement.params args
      let step := Step.within statement rule (rule.fill (rule.slots inner.1))
      (some step,
        rule.countFault root args ++ inner.2 ++ rule.misfits args inner.1 ++
          step.violations.map fun _ => ⟨.notDistinct, root⟩)

/-- The steps of a proof, each with the token that names its rule. -/
def Rule.citedSteps (statement : Rule) (scope : Scope) (proof : List Expr) : List (Token × Step) :=
  proof.filterMap fun e => (e.toStep scope statement).1.map fun s => (e.root, s)

def Rule.stepFaults (statement : Rule) (scope : Scope) (proof : List Expr) : List Diagnostic :=
  proof.flatMap fun e => (e.toStep scope statement).2

/-- The faults of the steps that take no goal off the list, at the tokens that name their rules. -/
def Snapshot.faults (callees : List Token) (snapshots : List Snapshot) : List Diagnostic :=
  (callees.zip snapshots).filterMap fun (t, s) =>
    if s.useless then some ⟨.uselessStep, t⟩ else none

end Axiomata
