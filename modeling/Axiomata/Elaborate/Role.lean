import Axiomata.Elaborate.Decl

/-!
# Roles

The role of a name is what it turned out to stand for. Only names that are looked up have one, and
only as far as the declaration was elaborated.
-/

namespace Axiomata

inductive Role where
  | param
  | const
  | term
  | postulate
  | thm
deriving DecidableEq, Repr, Inhabited

def Role.label : Role → String
  | .param => "Param"
  | .const => "Const"
  | .term => "Term"
  | .postulate => "Axiom"
  | .thm => "Thm"

abbrev Mark := Token × Role

namespace Expr

variable (scope : Scope) (params : List Param)

mutual

def marks : Expr → List Mark
  | .node root args =>
    if params.any (·.name == root.text) then [(root, .param)]
    else
      match scope.ctor? root.text with
      | none => []
      | some c =>
        if args.length == c.arity then
          (root, if args.isEmpty then .const else .term) :: marksAll args
        else []

def marksAll : List Expr → List Mark
  | [] => []
  | e :: es => marks e ++ marksAll es

end

theorem marksAll_eq_flatMap (es : List Expr) :
    marksAll scope params es = es.flatMap (marks scope params) := by
  induction es with
  | nil => rfl
  | cons e es ih => simp [marksAll, ih]

/-- The marks of the expressions up to the first one that fails. -/
def marksEach : List Expr → List Mark
  | [] => []
  | e :: es =>
    marks scope params e ++ if (instantiate scope params e).1.isSome then marksEach es else []

/-- The rule that a step names, then its arguments. -/
def stepMarks : Expr → List Mark
  | .node root args =>
    match scope.resolve root.text with
    | some (.postulate _) => (root, .postulate) :: marksAll scope params args
    | some (.thm _) => (root, .thm) :: marksAll scope params args
    | _ => []

end Expr

def Statement.marks (scope : Scope) (s : Statement) : List Mark :=
  if ((scope.badName? s.name).or (scope.badParam? [] s.params)).isSome then []
  else
    let params := s.params.map ParamDecl.toParam
    Expr.marksEach scope params s.clauses.conclusions ++
      if (Expr.instantiateEach scope params s.clauses.conclusions).1.isSome then
        Expr.marksEach scope params s.clauses.hypotheses
      else []

def Decl.marks (scope : Scope) : Decl → List Mark
  | .types _ => []
  | .term type name params body =>
    if (scope.declareTerm type name params body).symbols.isEmpty then []
    else (body.filter fun t => params.any (·.name.text == t.text)).map fun t => (t, .param)
  | .postulate s => s.marks scope
  | .thm s proof =>
    s.marks scope ++
      if (s.elaborate scope).1.isSome then
        proof.flatMap (Expr.stepMarks scope (s.params.map ParamDecl.toParam))
      else []

/-- The tokens that have a role, in the order of the tokens. The first mark of a token counts. -/
def Mark.resolve (tokens : List Token) (marks : List Mark) : List Mark :=
  tokens.filterMap fun t => (marks.find? (·.1.span == t.span)).map fun m => (t, m.2)

end Axiomata
