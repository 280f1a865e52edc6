import Axiomata.Term.Basic

/-! # Substitution of terms for variables -/

namespace Axiomata

/-- Terms bound to names. The first binding of a name counts. -/
abbrev Subst := List (String × Term)

namespace Subst

/-- Bindings of which a later one overrides an earlier one. -/
def ofList (bindings : List (String × Term)) : Subst := bindings.reverse

def get? (σ : Subst) (name : String) : Option Term := List.lookup name σ

end Subst

namespace Term

mutual

/-- Puts terms for variables. Holes stay. -/
def subst (σ : Subst) : Term → Term
  | .var name type => (σ.get? name).getD (.var name type)
  | .hole name type => .hole name type
  | .app c ts => .app c (substAll σ ts)

def substAll (σ : Subst) : List Term → List Term
  | [] => []
  | t :: ts => t.subst σ :: substAll σ ts

end

/-- Terms are put for variables only. -/
@[simp] theorem subst_hole (σ : Subst) (n y : String) : subst σ (.hole n y) = .hole n y := by
  rw [subst]

theorem substAll_eq_map (σ : Subst) (ts : List Term) : substAll σ ts = ts.map (subst σ) := by
  induction ts with
  | nil => rfl
  | cons t ts ih => simp [substAll, ih]

/-- Terms are put for the variables of all arguments. -/
@[simp] theorem subst_app (σ : Subst) (c : Ctor) (ts : List Term) :
    subst σ (.app c ts) = .app c (ts.map (subst σ)) := by
  rw [subst, substAll_eq_map]

end Term

end Axiomata
