import Axiomata.Decl.Basic
import Axiomata.Symbol

/-!
# From expressions to terms

A name stands for a parameter if there is one of that name, and for a constructor otherwise. All
arguments are instantiated before the application itself is turned down, so that each of them reports
its own faults first.
-/

namespace Axiomata

/-- The arguments, if there is one for each parameter and all have the right types. -/
def Param.fit : List Param → List (Option Term) → Option (List Term)
  | [], [] => some []
  | p :: ps, some t :: ts => if t.type == p.type then (fit ps ts).map (t :: ·) else none
  | _, _ => none

namespace Expr

variable (scope : Scope) (params : List Param)

mutual

def instantiate : Expr → Option Term × List Diagnostic
  | .node root args =>
    match params.find? (·.name == root.text) with
    | some p =>
      if args.isEmpty then (some (.var p.name p.type), []) else (none, [⟨.tooManyArgs, root⟩])
    | none =>
      match scope.ctor? root.text with
      | none => (none, [⟨.unknownTerm, root⟩])
      | some c =>
        if c.arity < args.length then (none, [⟨.tooManyArgs, root⟩])
        else if args.length < c.arity then (none, [⟨.tooFewArgs, root⟩])
        else
          let inner := instantiateAll args
          match Param.fit c.params inner.1 with
          | some ts => (some (.app c ts), inner.2)
          | none => (none, inner.2 ++ [⟨.argType, root⟩])

/-- Every expression on its own, with the faults of all. -/
def instantiateAll : List Expr → List (Option Term) × List Diagnostic
  | [] => ([], [])
  | e :: es =>
    let first := instantiate e
    let others := instantiateAll es
    (first.1 :: others.1, first.2 ++ others.2)

end

/-- Each expression is instantiated for itself, whatever becomes of the others. -/
theorem instantiateAll_fst (es : List Expr) :
    (instantiateAll scope params es).1 = es.map fun e => (instantiate scope params e).1 := by
  induction es with
  | nil => rfl
  | cons e es ih => simp [instantiateAll, ih]

/-- The faults of all expressions are reported, in their order. -/
theorem instantiateAll_snd (es : List Expr) :
    (instantiateAll scope params es).2 = es.flatMap fun e => (instantiate scope params e).2 := by
  induction es with
  | nil => rfl
  | cons e es ih => simp [instantiateAll, ih]

/-- The expressions in turn, up to the first one that fails. -/
def instantiateEach : List Expr → Option (List Term) × List Diagnostic
  | [] => (some [], [])
  | e :: es =>
    match instantiate scope params e with
    | (none, faults) => (none, faults)
    | (some t, faults) =>
      let others := instantiateEach es
      (others.1.map (t :: ·), faults ++ others.2)

end Expr

end Axiomata
