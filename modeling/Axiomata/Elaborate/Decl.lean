import Axiomata.Elaborate.Proof

/-!
# Declarations

A declaration adds symbols to the table of its file or reports faults. Symbols hold texts and no
positions, so a table does not depend on how its file is laid out.
-/

namespace Axiomata

/-- What a declaration adds. -/
structure Outcome where
  symbols : List Symbol := []
  faults : List Diagnostic := []
deriving Inhabited

namespace Outcome

instance : Append Outcome := ⟨fun a b => ⟨a.symbols ++ b.symbols, a.faults ++ b.faults⟩⟩

@[simp] theorem symbols_append (a b : Outcome) : (a ++ b).symbols = a.symbols ++ b.symbols := rfl
@[simp] theorem faults_append (a b : Outcome) : (a ++ b).faults = a.faults ++ b.faults := rfl

def report (faults : List Diagnostic) : Outcome := { faults }

end Outcome

namespace Scope

variable (scope : Scope)

/-- Adds a symbol, or reports at a token why it cannot be added. -/
def register (t : Token) (symbol : Symbol) : Outcome :=
  match scope.declare symbol with
  | .ok _ => { symbols := [symbol] }
  | .error fault => .report [⟨fault, t⟩]

/-- Checks a name before it is declared as a type. -/
def declareType (t : Token) : Outcome :=
  match scope.badName? t with
  | some d => .report [d]
  | none => scope.register t (.type t.text)

/-- Each name is declared or reported on its own. -/
def declareTypes (scope : Scope) : List Token → Outcome
  | [] => {}
  | t :: ts =>
    let first := scope.declareType t
    first ++ declareTypes (scope.append first.symbols) ts

def declareTerm (type name : Token) (params : List ParamDecl) (body : List Token) : Outcome :=
  match (scope.badType? type).or ((scope.badName? name).or (scope.badParam? [] params)) with
  | some d => .report [d]
  | none =>
    scope.register name <| .ctor {
      name := name.text
      type := type.text
      params := params.map ParamDecl.toParam
      template := Fragment.ofBody (params.map (·.name.text)) (body.map Token.text) }

def declarePostulate (s : Statement) : Outcome :=
  match s.elaborate scope with
  | (none, faults) => .report faults
  | (some rule, faults) => .report faults ++ scope.register s.name (.postulate rule)

/-- A theorem is added whether its proof is valid or not. -/
def declareThm (s : Statement) (proof : List Expr) : Outcome :=
  match s.elaborate scope with
  | (none, faults) => .report faults
  | (some rule, faults) =>
    let cited := rule.citedSteps scope proof
    let thm : Theorem := ⟨rule, cited.map Prod.snd⟩
    .report (faults ++ rule.stepFaults scope proof ++
        Snapshot.faults (cited.map Prod.fst) thm.snapshots) ++
      scope.register s.name (.thm thm) ++
      .report (if thm.valid then [] else [⟨.unproved, s.name⟩])

def elaborate : Decl → Outcome
  | .types names => scope.declareTypes names
  | .term type name params body => scope.declareTerm type name params body
  | .postulate s => scope.declarePostulate s
  | .thm s proof => scope.declareThm s proof

end Scope

end Axiomata
