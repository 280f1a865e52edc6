import Axiomata.Proofs.Derivation
import Axiomata.Proofs.TypedSymbols

/-!
# Substitutions compose

Putting in terms twice is putting them in once, by the terms of the first substitution with those of
the second put in (`Subst.andThen`). So it does not matter whether terms are put into the arguments of
a rule or into what the rule says of them (`Rule.map_subst_bindings`). A substitution
may bind a name to a term in which the name occurs, and then each further round changes the term again.
Where nothing that is put in can be replaced, one round is enough (`Term.subst_subst_self`).
-/

namespace Axiomata

namespace Subst

/-- A substitution after which another one is made. -/
def andThen (σ τ : Subst) : Subst := (σ.map fun b => (b.1, b.2.subst τ)) ++ τ

/-- A name gets its term from the first substitution, with the second one applied to it, or else
from the second one. -/
theorem get?_andThen (σ τ : Subst) (x : String) :
    (σ.andThen τ).get? x = ((σ.get? x).map (Term.subst τ)).or (τ.get? x) := by
  rw [← get?_map, get?, andThen, List.lookup_append]
  rfl

end Subst

namespace Term

/-- Two substitutions in turn are one substitution. -/
theorem subst_andThen (t : Term) (σ τ : Subst) : (t.subst σ).subst τ = t.subst (σ.andThen τ) :=
  subst_subst fun x _ => σ.get?_andThen τ x

/-- A substitution that gives no terms to the variables of a term leaves the term as it is. -/
theorem subst_eq_self {σ : Subst} {t : Term} (h : ∀ x ∈ t.vars, σ.get? x = none) : t.subst σ = t := by
  induction t with
  | var n y => rw [subst, h n (by simp), Option.getD_none]
  | hole n y => exact subst_hole σ n y
  | app c ts ih =>
    rw [vars_app] at h
    rw [subst_app, List.map_congr_left fun t ht => ih t ht fun x hx => h x ?_, List.map_id']
    exact List.mem_flatMap.mpr ⟨t, ht, hx⟩

/-- A second round has nothing to do if what was put in the first time is left as it is. -/
theorem subst_subst_self {σ : Subst} {t : Term}
    (h : ∀ x ∈ t.vars, ∀ a, σ.get? x = some a → ∀ y ∈ a.vars, σ.get? y = none) :
    (t.subst σ).subst σ = t.subst σ := by
  apply subst_subst
  intro x hx
  cases hget : σ.get? x with
  | none => rfl
  | some a => rw [Option.map_some, subst_eq_self (h x hx a hget), Option.some_or]

end Term

/-- Terms put into what a rule says of its arguments are put into the arguments. -/
theorem Rule.map_subst_bindings {symbols : List Symbol} {r : Rule} {args ts : List Term}
    (hts : ∀ t ∈ ts, t.Typed symbols r.params []) (hlen : args.length = r.params.length) (σ : Subst) :
    (ts.map (Term.subst (r.bindings args))).map (Term.subst σ) =
      ts.map (Term.subst (r.bindings (args.map (Term.subst σ)))) := by
  rw [List.map_map]
  exact List.map_congr_left fun t ht => subst_bindings hlen (hts t ht) σ

/-- Two substitutions, one after the other, make a term into the same term, shown in the same way, as
one substitution does: that by the terms of the first with those of the second put in, and by the terms
of the second for all other names. So what a rule of a compiled file says of an argument for each
parameter is, once terms are put in, what it says of the arguments with these terms put in. And a
substitution made twice does what it does once if it replaces no variable of a term that it puts in. -/
theorem subst_composes :
    (∀ (t : Term) (σ τ : Subst), (t.subst σ).subst τ = t.subst (σ.andThen τ) ∧
      ∀ x, (σ.andThen τ).get? x = ((σ.get? x).map (Term.subst τ)).or (τ.get? x)) ∧
    (∀ deps : List Table, (∀ table ∈ deps, table.Compiled fun _ => True) → ∀ ds : List Decl,
      ∀ x ∈ ((Elaboration.start deps).run ds).scope.symbols, ∀ rule, x.rule? = some rule →
      ∀ args : List Term, args.length = rule.params.length → ∀ σ : Subst,
        (rule.apply args).conclusions.map (Term.subst σ) =
            (rule.apply (args.map (Term.subst σ))).conclusions ∧
          (rule.apply args).hypotheses.map (Term.subst σ) =
            (rule.apply (args.map (Term.subst σ))).hypotheses) ∧
    ∀ (t : Term) (σ : Subst), (∀ x a, σ.get? x = some a → ∀ y ∈ a.vars, σ.get? y = none) →
      (t.subst σ).subst σ = t.subst σ := by
  refine ⟨fun t σ τ => ⟨t.subst_andThen σ τ, σ.get?_andThen τ⟩, ?_, fun t σ h => ?_⟩
  · intro deps hdeps ds x hx rule hrule args hlen σ
    obtain ⟨symbols, hsubset, hclosed⟩ :=
      (hereditary_typed fun _ => True).exists_closed_run hdeps (fun d (_ : d ∈ ds) => trivial)
    have hwf := (hclosed x (hsubset hx)).wellFormed hrule
    exact ⟨Rule.map_subst_bindings hwf.conclusions hlen σ,
      Rule.map_subst_bindings hwf.hypotheses hlen σ⟩
  · exact Term.subst_subst_self fun x _ => h x

/-- A variable is bound to a term in which it occurs, so that each round makes the term larger. -/
theorem subst_composes_self_reference :
    let base := Source.ofText "base" ("type P term P imp(P a, P b) \x7b (a -> b) \x7d " ++
      "axiom mp(P a, P b) \x7b -| a -| imp(a, b) |- b \x7d")
    let imp : Ctor :=
      ⟨"imp", "P", [⟨"P", "a"⟩, ⟨"P", "b"⟩], [.text "(", .arg 0, .text "->", .arg 1, .text ")"]⟩
    let p (name : String) : Term := .var name "P"
    let σ : Subst := [("x", .app imp [p "x", p "y"])]
    let τ : Subst := [("x", p "z"), ("y", p "x")]
    let ρ : Subst := [("x", .app imp [p "z", p "z"])]
    (((p "x").subst σ).subst τ = (p "x").subst (σ.andThen τ) ∧
        ((p "x").subst (σ.andThen τ)).canonical = "imp(z,x)") ∧
      (∃ x ∈ ((Elaboration.start []).run base.outline.decls).scope.symbols, ∃ rule,
        x.rule? = some rule ∧
        (rule.apply [p "x", p "y"]).hypotheses.map (Term.subst σ) =
          (rule.apply ([p "x", p "y"].map (Term.subst σ))).hypotheses ∧
        ((rule.apply [p "x", p "y"]).hypotheses.map (Term.subst σ)).map Term.display =
          ["(x->y)", "((x->y)->y)"]) ∧
      ((p "x").subst σ).display = "(x->y)" ∧ (((p "x").subst σ).subst σ).display = "((x->y)->y)" ∧
      ((p "x").subst ρ).subst ρ = (p "x").subst ρ := by
  intro base imp p σ τ ρ
  obtain ⟨x, hx, hview⟩ : ∃ x ∈ ((Elaboration.start []).run base.outline.decls).scope.symbols,
      x.rule?.any (fun rule => decide (rule.params.length = 2 ∧
        ((rule.apply [p "x", p "y"]).hypotheses.map (Term.subst σ)).map Term.display =
          ["(x->y)", "((x->y)->y)"])) = true := by decide +kernel
  simp only [Option.any_eq_true, decide_eq_true_eq] at hview
  obtain ⟨rule, hrule, hlen, hdisplay⟩ := hview
  have hρ : ∀ x a, ρ.get? x = some a → ∀ y ∈ a.vars, ρ.get? y = none := by
    intro x a ha y hy
    cases List.mem_singleton.mp (Subst.mem_of_get? ha)
    have hvars : y = "z" := by simpa [p] using hy
    rw [hvars]
    rfl
  refine ⟨⟨(subst_composes.1 (p "x") σ τ).1, by decide +kernel⟩, ⟨x, hx, rule, hrule, ?_, hdisplay⟩,
    by decide +kernel, by decide +kernel, subst_composes.2.2 (p "x") ρ hρ⟩
  have hargs : [p "x", p "y"].length = rule.params.length := hlen.symm
  exact (subst_composes.2.1 [] (by simp) base.outline.decls x hx rule hrule _ hargs σ).2

end Axiomata
