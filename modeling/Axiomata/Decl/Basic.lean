import Axiomata.Token.Basic

/-!
# Declarations as written

Declarations keep the tokens they are made of: names are resolved, and faults reported, at tokens.
-/

namespace Axiomata

/-- A name applied to expressions. -/
inductive Expr where
  | node (root : Token) (args : List Expr)

namespace Expr

def root : Expr → Token
  | .node root _ => root

def args : Expr → List Expr
  | .node _ args => args

@[simp] theorem root_node (t : Token) (es : List Expr) : (node t es).root = t := rfl
@[simp] theorem args_node (t : Token) (es : List Expr) : (node t es).args = es := rfl

instance : Inhabited Expr := ⟨.node default []⟩

/-- To show a property of all expressions, show it of a name whose arguments have it. -/
@[induction_eliminator]
theorem ind {motive : Expr → Prop}
    (node : ∀ root args, (∀ e ∈ args, motive e) → motive (.node root args)) (e : Expr) : motive e :=
  @Expr.rec motive (fun es => ∀ e ∈ es, motive e) node (by simp)
    (fun _ _ h hs => List.forall_mem_cons.2 ⟨h, hs⟩) e

mutual

/-- The name, and the arguments in brackets unless there are none. -/
def render : Expr → String
  | .node root [] => root.text
  | .node root (e :: es) => root.text ++ "(" ++ ",".intercalate (renderAll (e :: es)) ++ ")"

def renderAll : List Expr → List String
  | [] => []
  | e :: es => e.render :: renderAll es

end

end Expr

/-- A parameter as written: its type, then its name. -/
structure ParamDecl where
  type : Token
  name : Token
deriving DecidableEq, Repr, Inhabited

/-- What stands between the braces of a statement, each kind of clause in source order. -/
structure Clauses where
  conclusions : List Expr := []
  hypotheses : List Expr := []
  groups : List (List Token) := []
deriving Inhabited

namespace Clauses

def conclude (c : Clauses) (es : List Expr) : Clauses := { c with conclusions := es ++ c.conclusions }

def assume (c : Clauses) (es : List Expr) : Clauses := { c with hypotheses := es ++ c.hypotheses }

def separate (c : Clauses) (group : List Token) : Clauses := { c with groups := group :: c.groups }

end Clauses

/-- The common part of axioms and theorems. -/
structure Statement where
  name : Token
  params : List ParamDecl
  clauses : Clauses
deriving Inhabited

inductive Decl where
  | types (names : List Token)
  | term (type name : Token) (params : List ParamDecl) (body : List Token)
  | postulate (statement : Statement)
  | thm (statement : Statement) (proof : List Expr)
deriving Inhabited

end Axiomata
