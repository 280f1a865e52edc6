import Axiomata.Distinct

/-!
# Rules

A rule says that its conclusions follow from its hypotheses, for any terms in place of its
parameters that meet its distinctness conditions.
-/

namespace Axiomata

structure Rule where
  name : String
  params : List Param
  conclusions : List Term
  hypotheses : List Term
  groups : List (List String)
deriving Inhabited

/-- What a rule says of given arguments. -/
structure Applied where
  conclusions : List Term
  hypotheses : List Term
  distinct : Distinct
deriving Inhabited

namespace Rule

variable (r : Rule)

/-- The conditions that the rule itself states. -/
def distinct : Distinct := .ofGroups r.groups

def paramNames : List String := r.params.map Param.name

/-- The parameters bound to arguments, as far as both go. -/
def bindings (args : List Term) : Subst := .ofList (r.paramNames.zip args)

def conclusionsOf (args : List Term) : List Term :=
  r.conclusions.map (Term.subst (r.bindings args))

def hypothesesOf (args : List Term) : List Term :=
  r.hypotheses.map (Term.subst (r.bindings args))

def distinctOf (args : List Term) : Distinct := .propagate r.groups (r.bindings args)

def apply (args : List Term) : Applied :=
  ⟨r.conclusionsOf args, r.hypothesesOf args, r.distinctOf args⟩

/-- The arguments with a hole for each that is missing, named and typed like the parameter. -/
def fill (args : List (Option Term)) : List Term :=
  r.params.mapIdx fun i p => (args.getD i none).getD (.hole p.name p.type)

end Rule

end Axiomata
