import Axiomata.Elaborate.Expr

/-!
# Headers

The names, types and parameters of a declaration are checked one after the other, and only the first
fault is reported.
-/

namespace Axiomata

def ParamDecl.toParam (p : ParamDecl) : Param := ⟨p.type.text, p.name.text⟩

namespace Scope

variable (scope : Scope)

def badType? (t : Token) : Option Diagnostic := (scope.typeFault? t.text).map (⟨·, t⟩)

def badName? (t : Token) : Option Diagnostic := (scope.nameFault? t.text).map (⟨·, t⟩)

/-- Each parameter needs a type and a name that is free and not among those seen before. -/
def badParam? (seen : List String) : List ParamDecl → Option Diagnostic
  | [] => none
  | p :: ps =>
    (scope.badType? p.type).or <| (scope.badName? p.name).or <|
      if seen.contains p.name.text then some ⟨.repeatedParam, p.name⟩
      else badParam? (p.name.text :: seen) ps

end Scope

/-- The rule that a statement states. Conclusions come before hypotheses. -/
def Statement.elaborate (scope : Scope) (s : Statement) : Option Rule × List Diagnostic :=
  match (scope.badName? s.name).or (scope.badParam? [] s.params) with
  | some d => (none, [d])
  | none =>
    let params := s.params.map ParamDecl.toParam
    match Expr.instantiateEach scope params s.clauses.conclusions with
    | (none, faults) => (none, faults)
    | (some conclusions, faults) =>
      match Expr.instantiateEach scope params s.clauses.hypotheses with
      | (none, more) => (none, faults ++ more)
      | (some hypotheses, more) =>
        (some {
          name := s.name.text
          params
          conclusions
          hypotheses
          groups := s.clauses.groups.map (·.map Token.text) }, faults ++ more)

end Axiomata
