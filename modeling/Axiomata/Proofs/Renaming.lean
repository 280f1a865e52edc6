import Axiomata.Proofs.Suggestions

/-!
# Renaming of variables

A proof is replayed by comparing canonical texts, where a variable counts as the same as whatever else
has its name. When variables get other names the comparisons come out as before, if the new names are
apart and none of the names that change has to do with a constructor (`Renames.canonical_rename_iff`).
Then the renamed proof does the same step by step (`Renames.replay_rename`).
-/

namespace Axiomata

/-! ## Renaming -/

def Token.rename (ρ : String → String) (t : Token) : Token := { t with text := ρ t.text }

def ParamDecl.rename (ρ : String → String) (p : ParamDecl) : ParamDecl :=
  { p with name := p.name.rename ρ }

def Param.rename (ρ : String → String) (p : Param) : Param := { p with name := ρ p.name }

namespace Expr

variable (ρ : String → String)

mutual

def rename : Expr → Expr
  | .node root args => .node (root.rename ρ) (renameAll args)

def renameAll : List Expr → List Expr
  | [] => []
  | e :: es => e.rename :: renameAll es

end

theorem renameAll_eq_map (es : List Expr) : renameAll ρ es = es.map (rename ρ) := by
  induction es with
  | nil => rfl
  | cons e es ih => simp [renameAll, ih]

@[simp] theorem rename_node (root : Token) (args : List Expr) :
    (node root args).rename ρ = .node (root.rename ρ) (args.map (rename ρ)) := by
  rw [rename, renameAll_eq_map]

/-- A step of a proof keeps the name of its rule. -/
def renameArgs : Expr → Expr
  | .node root args => .node root (args.map (rename ρ))

@[simp] theorem root_renameArgs (e : Expr) : (e.renameArgs ρ).root = e.root := by
  cases e with
  | node root args => rfl

end Expr

/-- The statement keeps its name. -/
def Statement.rename (ρ : String → String) (s : Statement) : Statement where
  name := s.name
  params := s.params.map (ParamDecl.rename ρ)
  clauses :=
    { conclusions := s.clauses.conclusions.map (Expr.rename ρ)
      hypotheses := s.clauses.hypotheses.map (Expr.rename ρ)
      groups := s.clauses.groups.map (·.map (Token.rename ρ)) }

namespace Term

variable (ρ : String → String)

mutual

/-- Renames the variables. -/
def rename : Term → Term
  | .var name type => .var (ρ name) type
  | .hole name type => .hole name type
  | .app c ts => .app c (renameAll ts)

def renameAll : List Term → List Term
  | [] => []
  | t :: ts => t.rename :: renameAll ts

end

theorem renameAll_eq_map (ts : List Term) : renameAll ρ ts = ts.map (rename ρ) := by
  induction ts with
  | nil => rfl
  | cons t ts ih => simp [renameAll, ih]

@[simp] theorem rename_var (n y : String) : (var n y).rename ρ = .var (ρ n) y := rfl
@[simp] theorem rename_hole (n y : String) : (hole n y).rename ρ = .hole n y := rfl

@[simp] theorem rename_app (c : Ctor) (ts : List Term) :
    (app c ts).rename ρ = .app c (ts.map (rename ρ)) := by
  rw [rename, renameAll_eq_map]

@[simp] theorem type_rename (t : Term) : (t.rename ρ).type = t.type := by
  cases t <;> simp

@[simp] theorem args_rename (t : Term) : (t.rename ρ).args = t.args.map (rename ρ) := by
  cases t <;> simp [args]

variable {ρ}

/-- A renamed term is typed over the renamed variables. -/
theorem Typed.rename {symbols : List Symbol} {vars holes : List Param} {t : Term}
    (h : t.Typed symbols vars holes) :
    (t.rename ρ).Typed symbols (vars.map (Param.rename ρ)) holes := by
  induction h with
  | var h => exact .var (List.mem_map_of_mem h)
  | hole h => exact .hole h
  | app hc types _ ih =>
    rw [rename_app]
    refine .app hc ?_ fun u hu => ?_
    · rw [← types, List.map_map]
      exact List.map_congr_left fun t _ => t.type_rename ρ
    · obtain ⟨t, ht, rfl⟩ := List.mem_map.mp hu
      exact ih t ht

/-- Renaming what is put for all variables of a term. -/
theorem rename_subst {σ τ : Subst} {t : Term}
    (h : ∀ x ∈ t.vars, ∃ a, σ.get? x = some a ∧ τ.get? x = some (a.rename ρ)) :
    (t.subst σ).rename ρ = t.subst τ := by
  induction t with
  | var n y =>
    obtain ⟨a, ha, hτ⟩ := h n (by simp)
    simp [subst, ha, hτ]
  | hole n y => simp
  | app c ts ih =>
    simp only [subst_app, rename_app, List.map_map, app.injEq, true_and]
    refine List.map_congr_left fun t ht => ih t ht fun x hx => h x ?_
    rw [vars_app]
    exact List.mem_flatMap.mpr ⟨t, ht, hx⟩

end Term

def Rule.rename (ρ : String → String) (r : Rule) : Rule where
  name := r.name
  params := r.params.map (Param.rename ρ)
  conclusions := r.conclusions.map (Term.rename ρ)
  hypotheses := r.hypotheses.map (Term.rename ρ)
  groups := r.groups.map (·.map ρ)

/-- The step of a renamed proof. -/
def Step.rename (ρ : String → String) (s : Step) : Step :=
  { s with args := s.args.map (Term.rename ρ) }

def Theorem.rename (ρ : String → String) (t : Theorem) : Theorem :=
  ⟨t.statement.rename ρ, t.steps.map (Step.rename ρ)⟩

variable {ρ : String → String} {params : List Param} {symbols : List Symbol}

/-- What a well-formed rule says of renamed arguments. -/
theorem Rule.subst_bindings_rename {vars : List Param} {r : Rule} {args : List Term}
    (hfits : r.Fits symbols vars [] args) {t : Term} (ht : t.Typed symbols r.params []) :
    t.subst (r.bindings (args.map (Term.rename ρ))) = (t.subst (r.bindings args)).rename ρ :=
  (Term.rename_subst (exists_binding_map hfits.length_eq ht (Term.rename ρ))).symm

/-! ## Comparisons -/

/-- Lists agree under a function exactly if they agree under another that tells their members apart
alike. -/
theorem map_eq_map_iff_of_forall {α β γ : Type} {f : α → β} {g : α → γ} {xs ys : List α}
    (h : ∀ x ∈ xs, ∀ y ∈ ys, (f x = f y ↔ g x = g y)) :
    xs.map f = ys.map f ↔ xs.map g = ys.map g := by
  rw [map_eq_map_iff_zip, map_eq_map_iff_zip]
  refine and_congr_right fun _ => forall₂_congr fun x hx => ?_
  exact h x.1 (List.of_mem_zip hx).1 x.2 (List.of_mem_zip hx).2

/-- A renaming of parameters that keeps them apart. The symbols have nothing to do with what changes:
no constructor has the old name of a parameter that gets another one, or its new name. -/
structure Renames (ρ : String → String) (params : List Param) (symbols : List Symbol) : Prop where
  inj : ∀ {p q : Param}, p ∈ params → q ∈ params → ρ p.name = ρ q.name → p.name = q.name
  old_plain : ∀ {p : Param}, p ∈ params → ∀ c ∈ p.name.toList, Lexer.isWordChar c
  new_plain : ∀ {p : Param}, p ∈ params → ∀ c ∈ (ρ p.name).toList, Lexer.isWordChar c
  symbol_plain : ∀ x ∈ symbols, x.Plain
  steady : ∀ {c : Ctor} {p : Param}, .ctor c ∈ symbols → p ∈ params → ρ p.name ≠ p.name →
    c.name ≠ p.name ∧ c.name ≠ ρ p.name

namespace Renames

variable (h : Renames ρ params symbols) {s t : Term}

include h

/-- A constructor has the new name of a parameter only if it had the old one. -/
theorem ctor_eq_iff {c : Ctor} (hc : .ctor c ∈ symbols) {p : Param} (hp : p ∈ params) :
    c.name = ρ p.name ↔ c.name = p.name := by
  by_cases heq : ρ p.name = p.name
  · rw [heq]
  · obtain ⟨hold, hnew⟩ := h.steady hc hp heq
    exact iff_of_false hnew hold

/-- Renaming does not change whether two terms have the same name in front. -/
theorem head_rename_iff (hs : s.Typed symbols params []) (ht : t.Typed symbols params []) :
    (s.rename ρ).head = (t.rename ρ).head ↔ s.head = t.head := by
  cases hs with
  | hole hp => simp at hp
  | var hp =>
    cases ht with
    | hole hq => simp at hq
    | var hq => exact ⟨h.inj hp hq, fun heq => congrArg ρ heq⟩
    | app hc _ _ =>
      rw [Term.rename_app]
      exact eq_comm.trans ((h.ctor_eq_iff hc hp).trans eq_comm)
  | app hc _ _ =>
    rw [Term.rename_app]
    cases ht with
    | hole hq => simp at hq
    | var hq => exact h.ctor_eq_iff hc hq
    | app hd _ _ =>
      rw [Term.rename_app]
      exact Iff.rfl

/-- Terms over the parameters are plain. -/
theorem plain (ht : t.Typed symbols params []) : t.Plain :=
  ht.plain h.symbol_plain fun p hp => h.old_plain (by simpa using hp)

/-- They are so with the new names, too. -/
theorem plain_rename (ht : t.Typed symbols params []) : (t.rename ρ).Plain := by
  refine ht.rename.plain h.symbol_plain fun p hp => ?_
  rw [List.append_nil] at hp
  obtain ⟨q, hq, rfl⟩ := List.mem_map.mp hp
  exact h.new_plain hq

/-- Terms are compared by the names at their roots and by their arguments. -/
theorem canonical_rename_iff_of_args (hs : s.Typed symbols params [])
    (ht : t.Typed symbols params []) (hargs : ∀ a ∈ s.args, ∀ b ∈ t.args,
      ((a.rename ρ).canonical = (b.rename ρ).canonical ↔ a.canonical = b.canonical)) :
    (s.rename ρ).canonical = (t.rename ρ).canonical ↔ s.canonical = t.canonical := by
  rw [(h.plain_rename hs).canonical_eq_iff (h.plain_rename ht),
    (h.plain hs).canonical_eq_iff (h.plain ht), h.head_rename_iff hs ht, Term.args_rename,
    Term.args_rename, List.map_map, List.map_map]
  exact and_congr_right fun _ => map_eq_map_iff_of_forall hargs

/-- Renaming does not change whether two terms have the same text. -/
theorem canonical_rename_iff (hs : s.Typed symbols params []) (ht : t.Typed symbols params []) :
    (s.rename ρ).canonical = (t.rename ρ).canonical ↔ s.canonical = t.canonical := by
  induction hs generalizing t with
  | var hp => exact h.canonical_rename_iff_of_args (.var hp) ht (by simp [Term.args])
  | hole hp => simp at hp
  | app hc types hss ih =>
    refine h.canonical_rename_iff_of_args (.app hc types hss) ht fun a ha b hb => ?_
    exact ih a ha (ht.of_mem_args hb)

/-- Therefore a renamed term is found among renamed terms if the term was found among them. -/
theorem contains_rename (ht : t.Typed symbols params []) {us : List Term}
    (hus : ∀ u ∈ us, u.Typed symbols params []) :
    ((us.map (Term.rename ρ)).map Term.canonical).contains (t.rename ρ).canonical =
      (us.map Term.canonical).contains t.canonical := by
  rw [Bool.eq_iff_iff, List.contains_iff_mem, List.contains_iff_mem, List.map_map, List.mem_map,
    List.mem_map]
  exact exists_congr fun u => and_congr_right fun hu => h.canonical_rename_iff (hus u hu) ht

end Renames

/-! ## Replay -/

/-- A step of a rule whose terms are typed, with an argument of the right type for each parameter. -/
structure Step.Whole (symbols : List Symbol) (vars : List Param) (s : Step) : Prop where
  rule : s.rule.WellFormed symbols
  args : s.rule.Fits symbols vars [] s.args

namespace Step.Whole

variable {step : Step} (hstep : step.Whole symbols params)

include hstep

/-- The conclusions of a step are typed over the variables of the theorem. -/
theorem conclusions : ∀ t ∈ step.conclusions, t.Typed symbols params [] := by
  intro t ht
  obtain ⟨c, hc, rfl⟩ := List.mem_map.mp ht
  exact hstep.args.typed_subst hstep.rule.nodup (hstep.rule.conclusions c hc)

/-- So are its hypotheses. -/
theorem hypotheses : ∀ t ∈ step.hypotheses, t.Typed symbols params [] := by
  intro t ht
  obtain ⟨c, hc, rfl⟩ := List.mem_map.mp ht
  exact hstep.args.typed_subst hstep.rule.nodup (hstep.rule.hypotheses c hc)

/-- A renamed step concludes what the step concludes, renamed. -/
theorem conclusions_rename (ρ : String → String) :
    (step.rename ρ).conclusions = step.conclusions.map (Term.rename ρ) := by
  rw [Step.conclusions, Step.conclusions, Rule.conclusionsOf, Rule.conclusionsOf, List.map_map]
  exact List.map_congr_left fun c hc =>
    Rule.subst_bindings_rename hstep.args (hstep.rule.conclusions c hc)

/-- A renamed step asks for what the step asks for, renamed. -/
theorem hypotheses_rename (ρ : String → String) :
    (step.rename ρ).hypotheses = step.hypotheses.map (Term.rename ρ) := by
  rw [Step.hypotheses, Step.hypotheses, Rule.hypothesesOf, Rule.hypothesesOf, List.map_map]
  exact List.map_congr_left fun c hc =>
    Rule.subst_bindings_rename hstep.args (hstep.rule.hypotheses c hc)

end Step.Whole

namespace Renames

variable (h : Renames ρ params symbols) {hypotheses goals : List Term}
  (hhyps : ∀ t ∈ hypotheses, t.Typed symbols params [])

include h hhyps

/-- The same goals are taken off the list. -/
theorem advance?_rename {step : Step} (hstep : step.Whole symbols params)
    (hgoals : ∀ t ∈ goals, t.Typed symbols params []) :
    (step.rename ρ).advance? (hypotheses.map (Term.rename ρ)) (goals.map (Term.rename ρ)) =
      (step.advance? hypotheses goals).map (List.map (Term.rename ρ)) := by
  have hproved : ∀ g ∈ goals,
      (((step.conclusions.map (Term.rename ρ)).map Term.canonical).contains (g.rename ρ).canonical) =
        (step.conclusions.map Term.canonical).contains g.canonical :=
    fun g hg => h.contains_rename (hgoals g hg) hstep.conclusions
  have hassumed : ∀ t : Term, t.Typed symbols params [] →
      (((hypotheses.map (Term.rename ρ)).map Term.canonical).contains (t.rename ρ).canonical) =
        (hypotheses.map Term.canonical).contains t.canonical :=
    fun t ht => h.contains_rename ht hhyps
  have hany : ((goals.map (Term.rename ρ)).any fun g =>
        ((step.conclusions.map (Term.rename ρ)).map Term.canonical).contains g.canonical) =
      goals.any fun g => (step.conclusions.map Term.canonical).contains g.canonical := by
    rw [List.any_map, Bool.eq_iff_iff, List.any_eq_true, List.any_eq_true]
    exact exists_congr fun g => and_congr_right fun hg => by rw [Function.comp_apply, hproved g hg]
  have hnew : (step.hypotheses.map (Term.rename ρ)).filter (fun t =>
        !((hypotheses.map (Term.rename ρ)).map Term.canonical).contains t.canonical) =
      (step.hypotheses.filter fun t =>
        !(hypotheses.map Term.canonical).contains t.canonical).map (Term.rename ρ) := by
    rw [List.filter_map]
    refine congrArg _ (List.filter_congr fun t ht => ?_)
    rw [Function.comp_apply, hassumed t (hstep.hypotheses t ht)]
  have hcarried : (goals.map (Term.rename ρ)).filter (fun g =>
        !((step.conclusions.map (Term.rename ρ)).map Term.canonical).contains g.canonical &&
          !((hypotheses.map (Term.rename ρ)).map Term.canonical).contains g.canonical) =
      (goals.filter fun g => !(step.conclusions.map Term.canonical).contains g.canonical &&
        !(hypotheses.map Term.canonical).contains g.canonical).map (Term.rename ρ) := by
    rw [List.filter_map]
    refine congrArg _ (List.filter_congr fun g hg => ?_)
    rw [Function.comp_apply, hproved g hg, hassumed g (hgoals g hg)]
  simp only [Step.advance?, hstep.conclusions_rename, hstep.hypotheses_rename]
  rw [hany, hnew, hcarried, ← List.map_append]
  split <;> rfl

/-- A renamed step leaves the renamed goals, and is useless if the step is. -/
theorem run_rename {step : Step} (hstep : step.Whole symbols params)
    (hgoals : ∀ t ∈ goals, t.Typed symbols params []) :
    ((step.rename ρ).run (hypotheses.map (Term.rename ρ)) (goals.map (Term.rename ρ))).goals =
        (step.run hypotheses goals).goals.map (Term.rename ρ) ∧
      ((step.rename ρ).run (hypotheses.map (Term.rename ρ)) (goals.map (Term.rename ρ))).useless =
        (step.run hypotheses goals).useless := by
  rw [Step.run, Step.run, h.advance?_rename hhyps hstep hgoals]
  cases step.advance? hypotheses goals with
  | none => exact ⟨rfl, rfl⟩
  | some next => exact ⟨rfl, rfl⟩

/-- A renamed proof does the same step by step. -/
theorem replay_rename {steps : List Step} (hsteps : ∀ s ∈ steps, s.Whole symbols params)
    (hgoals : ∀ t ∈ goals, t.Typed symbols params []) :
    let renamed := replay (hypotheses.map (Term.rename ρ)) (goals.map (Term.rename ρ))
      (steps.map (Step.rename ρ))
    remaining (goals.map (Term.rename ρ)) renamed =
        (remaining goals (replay hypotheses goals steps)).map (Term.rename ρ) ∧
      renamed.map Snapshot.useless = (replay hypotheses goals steps).map Snapshot.useless := by
  induction steps generalizing goals with
  | nil => exact ⟨rfl, rfl⟩
  | cons step steps ih =>
    rw [List.forall_mem_cons] at hsteps
    obtain ⟨hgoals', huseless⟩ := h.run_rename hhyps hsteps.1 hgoals
    have hnext : ∀ g ∈ (step.run hypotheses goals).goals, g.Typed symbols params [] :=
      fun g hg => (step.mem_goals_run hg).elim (hsteps.1.hypotheses g) (hgoals g)
    obtain ⟨hremaining, hflags⟩ := ih hsteps.2 hnext
    simp only [List.map_cons, replay, remaining_cons, hgoals', huseless]
    exact ⟨hremaining, by rw [hflags]⟩

end Renames

end Axiomata
