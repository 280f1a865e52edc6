import Axiomata.Proofs.Atomicity
import Axiomata.Proofs.Renaming
import Axiomata.Proofs.Soundness

/-!
# Theorems with renamed parameters

A theorem stays proved when its parameters get other names, throughout the statement and its proof.
Elaboration looks parameters up by name and finds the renamed ones where it found the old ones
(`Scope.Accepts.instantiate_rename`). A step keeps apart what it kept apart before, if no new name is
among what its rule speaks of besides variables (`Step.fixedEnds`): a name that the rule does not bind
is taken for the parameter, and so is what is shown of a constant. The replay comes out as before if no
name that changes is that of a constructor, which in a scope that was compiled in order none is, and
otherwise has to be asked of the rules that the proof uses.
-/

namespace Axiomata

variable {ρ : String → String} {params : List Param} {symbols : List Symbol}

/-! ## Elaboration -/

/-- Expressions that are renamed one by one stand for the renamed terms. -/
theorem Expr.map_instantiate_rename {s : Scope} {as bs : List Param} {es : List Expr}
    (h : ∀ e ∈ es, ∀ t, (e.instantiate s as).1 = some t →
      ((e.rename ρ).instantiate s bs).1 = some (t.rename ρ))
    {ts : List Term} (hts : es.map (fun e => (e.instantiate s as).1) = ts.map some) :
    (es.map (Expr.rename ρ)).map (fun e => (e.instantiate s bs).1) =
      (ts.map (Term.rename ρ)).map some := by
  have hsome : ∀ e ∈ es, ((e.rename ρ).instantiate s bs).1 =
      ((e.instantiate s as).1).map (Term.rename ρ) := by
    intro e he
    have hmem : (e.instantiate s as).1 ∈ ts.map some := hts ▸ List.mem_map_of_mem he
    obtain ⟨t, -, ht⟩ := List.mem_map.mp hmem
    rw [h e he t ht.symm, ← ht, Option.map_some]
  calc (es.map (Expr.rename ρ)).map (fun e => (e.instantiate s bs).1)
      = (es.map fun e => (e.instantiate s as).1).map (Option.map (Term.rename ρ)) := by
        rw [List.map_map, List.map_map]
        exact List.map_congr_left hsome
    _ = (ts.map (Term.rename ρ)).map some := by
        rw [hts, List.map_map, List.map_map]
        rfl

/-- Other names for parameters, none of which means anything in the scope. -/
structure Scope.Accepts (s : Scope) (ρ : String → String) (params : List Param) : Prop where
  fixed : ∀ n, n ∉ params.map Param.name → ρ n = n
  nodup : ((params.map (Param.rename ρ)).map Param.name).Nodup
  free : ∀ {p : Param}, p ∈ params → s.resolve (ρ p.name) = none

namespace Scope.Accepts

variable {s : Scope} (h : s.Accepts ρ params)

include h

/-- Parameters that have different names get different names. -/
theorem inj {p q : Param} (hp : p ∈ params) (hq : q ∈ params) (heq : ρ p.name = ρ q.name) :
    p.name = q.name := by
  have hnodup := h.nodup
  rw [List.map_map] at hnodup
  rw [List.inj_on_of_nodup_map hnodup hp hq heq]

/-- A renamed parameter is found where the parameter was. -/
theorem find?_rename {name : String} {p : Param} (hp : params.find? (·.name == name) = some p) :
    (params.map (Param.rename ρ)).find? (·.name == ρ name) = some (p.rename ρ) := by
  obtain rfl : p.name = name := by simpa using List.find?_some hp
  exact find?_key_eq_some h.nodup (List.mem_map_of_mem (List.mem_of_find?_eq_some hp))

/-- What means something in the scope is no renamed parameter. -/
theorem find?_eq_none {name : String} (hname : s.resolve name ≠ none) :
    (params.map (Param.rename ρ)).find? (·.name == name) = none := by
  rw [List.find?_eq_none]
  intro q hq heq
  obtain ⟨p, hp, rfl⟩ := List.mem_map.mp hq
  exact hname (beq_iff_eq.mp heq ▸ h.free hp)

/-- A renamed expression stands for the renamed term, over the renamed parameters. -/
theorem instantiate_rename {e : Expr} {t : Term} (ht : (e.instantiate s params).1 = some t) :
    ((e.rename ρ).instantiate s (params.map (Param.rename ρ))).1 = some (t.rename ρ) := by
  induction e generalizing t with
  | node root args ih =>
    rw [Expr.rename_node, Expr.instantiate_eq_some_iff]
    rcases Expr.instantiate_eq_some_iff.mp ht with
      ⟨p, hp, rfl, rfl⟩ | ⟨hp, c, ts, hc, hargs, htypes, rfl⟩
    · exact .inl ⟨p.rename ρ, h.find?_rename hp, rfl, rfl⟩
    · have hfixed : (root.rename ρ).text = root.text := by
        refine h.fixed root.text fun hmem => ?_
        obtain ⟨p, hmem, hname⟩ := List.mem_map.mp hmem
        simpa [hname] using List.find?_eq_none.mp hp p hmem
      have hknown : s.resolve root.text ≠ none := by
        intro hnone
        rw [Scope.ctor?, hnone] at hc
        cases hc
      rw [hfixed, Term.rename_app]
      refine .inr ⟨h.find?_eq_none hknown, c, ts.map (Term.rename ρ), hc, ?_, ?_, rfl⟩
      · exact Expr.map_instantiate_rename (fun e he t ht => ih e he ht) hargs
      · simpa [Function.comp_def] using htypes

theorem map_instantiate_rename {es : List Expr} {ts : List Term}
    (hts : es.map (fun e => (e.instantiate s params).1) = ts.map some) :
    (es.map (Expr.rename ρ)).map (fun e => (e.instantiate s (params.map (Param.rename ρ))).1) =
      (ts.map (Term.rename ρ)).map some :=
  Expr.map_instantiate_rename (fun _ _ _ ht => h.instantiate_rename ht) hts

end Scope.Accepts

/-- If nothing is wrong with the renamed parameters, the renaming is accepted. -/
theorem Scope.accepts_of_badParam {s : Scope} {ps : List ParamDecl}
    (h : s.badParam? [] (ps.map (ParamDecl.rename ρ)) = none)
    (hother : ∀ name, name ∉ ps.map (·.name.text) → ρ name = name) :
    s.Accepts ρ (ps.map ParamDecl.toParam) := by
  refine ⟨?_, ?_, fun hp => ?_⟩
  · rw [List.map_map]
    exact hother
  · simpa [ParamDecl.rename, Token.rename, Param.rename, ParamDecl.toParam, Function.comp_def] using
      (badParam?_eq_none_iff.mp h).2
  · obtain ⟨q, hq, rfl⟩ := List.mem_map.mp hp
    exact resolve_eq_none_of_badParam h (List.mem_map_of_mem hq)

/-- A renamed statement states what the statement did, renamed. -/
theorem Statement.elaborate_rename {s : Scope} {st : Statement} {r : Rule}
    (hr : (st.elaborate s).1 = some r) (h : s.Accepts ρ r.params)
    (hparams : s.badParam? [] (st.rename ρ).params = none) :
    ((st.rename ρ).elaborate s).1 = some (r.rename ρ) := by
  obtain ⟨hname, -, hrname, hrparams, hconclusions, hhypotheses, hgroups⟩ :=
    elaborate_eq_some_iff.mp hr
  rw [elaborate_eq_some_iff]
  refine ⟨hname, hparams, hrname, ?_, h.map_instantiate_rename hconclusions,
    h.map_instantiate_rename hhypotheses, ?_⟩
  · simp only [rename, Rule.rename, hrparams, List.map_map]
    rfl
  · simp [rename, Rule.rename, hgroups, Token.rename, Function.comp_def]

/-! ## Steps -/

/-- An expression without faults is a step. -/
theorem Expr.exists_of_toStep {s : Scope} {r : Rule} {e : Expr} (h : (e.toStep s r).2 = []) :
    ∃ step, e.toStep s r = (some step, []) := by
  cases e with
  | node root args =>
    simp only [toStep] at h ⊢
    cases hrule : s.rule? root.text with
    | none => simp [hrule] at h
    | some rule =>
      simp only [hrule] at h ⊢
      exact ⟨_, Prod.ext rfl h⟩

namespace Term

/-- A renamed term ends in renamed variables, and in what was not renamed. -/
theorem mem_ends_rename {t : Term} {x : String} (h : x ∈ (t.rename ρ).ends) :
    (∃ y ∈ t.vars, x = ρ y) ∨ x ∈ t.fixedEnds := by
  induction t with
  | var n y => exact .inl ⟨n, by simp, by simpa [ends] using h⟩
  | hole n y => exact .inr h
  | app c ts ih =>
    cases ts with
    | nil => exact .inr (by simpa [ends, fixedEnds] using h)
    | cons t ts =>
      rw [rename_app, List.map_cons, ends, endsAll_eq_flatMap, ← List.map_cons, List.flatMap_map] at h
      obtain ⟨u, hu, hx⟩ := List.mem_flatMap.mp h
      rw [vars_app, fixedEnds, fixedEndsAll_eq_flatMap]
      refine (ih u hu hx).imp ?_ fun hx => List.mem_flatMap.mpr ⟨u, hu, hx⟩
      rintro ⟨y, hy, rfl⟩
      exact ⟨y, List.mem_flatMap.mpr ⟨u, hu, hy⟩, rfl⟩

end Term

/-- What a name ends in besides variables once terms are put for names. -/
def Distinct.fixedUnder (σ : Subst) (name : String) : List String :=
  match σ.get? name with
  | some t => t.fixedEnds
  | none => [name]

/-- What a step has to keep apart from others besides the variables of its arguments: what is shown of
constants in arguments, and names that its rule keeps apart but does not bind. -/
def Step.fixedEnds (s : Step) : List String :=
  s.rule.groups.flatten.flatMap (Distinct.fixedUnder (s.rule.bindings s.args))

/-- The constructors that a rule speaks of. -/
def Rule.ctors (r : Rule) : List Ctor := (r.conclusions ++ r.hypotheses).flatMap Term.ctors

/-- What does not come out of variables is among what comes out of a name. -/
theorem Distinct.fixedUnder_subset_leavesUnder (σ : Subst) (name : String) :
    fixedUnder σ name ⊆ leavesUnder σ name := by
  rw [fixedUnder, leavesUnder]
  cases σ.get? name with
  | none => exact List.Subset.refl _
  | some t => exact fun x hx => Term.mem_leaves.mpr (t.fixedEnds_subset_ends hx)

/-- What a name ends in once renamed arguments are put: renamed variables, and what was there. -/
theorem Rule.mem_leavesUnder_rename {vars : List Param} {r : Rule} {args : List Term}
    (hfits : r.Fits symbols vars [] args) {name x : String}
    (hx : x ∈ Distinct.leavesUnder (r.bindings (args.map (Term.rename ρ))) name) :
    (∃ p ∈ vars, p.name ∈ Distinct.leavesUnder (r.bindings args) name ∧ x = ρ p.name) ∨
      x ∈ Distinct.fixedUnder (r.bindings args) name := by
  rw [Distinct.leavesUnder, get?_bindings_map] at hx
  rw [Distinct.leavesUnder, Distinct.fixedUnder]
  cases ht : (r.bindings args).get? name with
  | none =>
    rw [ht] at hx
    exact .inr hx
  | some t =>
    rw [ht] at hx
    refine (Term.mem_ends_rename (Term.mem_leaves.mp hx)).imp_left ?_
    rintro ⟨y, hy, rfl⟩
    obtain ⟨p, hp, rfl⟩ := (hfits.typed t (mem_args_of_get?_bindings ht).2).exists_param hy
    exact ⟨p, hp, Term.mem_leaves.mpr (t.vars_subset_ends hy), rfl⟩

/-- Names that are kept apart are so under their new names. -/
theorem Distinct.Apart.map {groups : List (List String)} {a b : String} (h : Apart groups a b)
    (ρ : String → String) : Apart (groups.map (·.map ρ)) (ρ a) (ρ b) := by
  obtain ⟨group, hg, i, j, hne, ha, hb⟩ := h
  exact ⟨group.map ρ, List.mem_map_of_mem hg, i, j, hne, by simp [ha], by simp [hb]⟩

/-- Names that are kept apart are members of the groups. -/
theorem Distinct.Apart.mem_flatten {groups : List (List String)} {a b : String}
    (h : Apart groups a b) : a ∈ groups.flatten ∧ b ∈ groups.flatten := by
  obtain ⟨group, hg, i, j, -, ha, hb⟩ := h
  exact ⟨List.mem_flatten_of_mem hg (List.mem_of_getElem? ha),
    List.mem_flatten_of_mem hg (List.mem_of_getElem? hb)⟩

/-- What a name becomes: a parameter is renamed, and anything else stays, unless it is the new name of
a parameter. -/
inductive Follows (ρ : String → String) (params : List Param) : String → String → Prop
  | param {p : Param} (hp : p ∈ params) : Follows ρ params p.name (ρ p.name)
  | fixed {a : String} (ha : ∀ p ∈ params, ρ p.name = a → ρ p.name = p.name) : Follows ρ params a a

/-- Only a parameter becomes a new name. -/
theorem Follows.of_mem {a a' : String} (h : Follows ρ params a a')
    (ha' : a' ∈ (params.map (Param.rename ρ)).map Param.name) :
    a ∈ params.map Param.name ∧ a' = ρ a := by
  cases h with
  | param hp => exact ⟨List.mem_map_of_mem hp, rfl⟩
  | fixed ha =>
    rw [List.map_map] at ha'
    obtain ⟨q, hq, rfl⟩ := List.mem_map.mp ha'
    have heq : ρ q.name = q.name := ha q hq rfl
    exact ⟨List.mem_map.mpr ⟨q, hq, heq.symm⟩, congrArg ρ heq.symm⟩

namespace Scope.Accepts

variable {s : Scope} {r : Rule} (h : s.Accepts ρ r.params)

include h

/-- Different names stay different. -/
theorem ne_of_follows {a b a' b' : String} (ha : Follows ρ r.params a a')
    (hb : Follows ρ r.params b b') (hab : a ≠ b) : a' ≠ b' := by
  cases ha with
  | param hp =>
    cases hb with
    | param hq => exact fun heq => hab (h.inj hp hq heq)
    | fixed hb => exact fun heq => hab ((hb _ hp heq).symm.trans heq)
  | fixed ha =>
    cases hb with
    | param hq => exact fun heq => hab (heq.trans (ha _ hq heq.symm))
    | fixed hb => exact hab

/-- A renamed rule keeps apart what the rule keeps apart. -/
theorem keepsApart_rename {a b a' b' : String} (ha : Follows ρ r.params a a')
    (hb : Follows ρ r.params b b') (hab : r.KeepsApart a b) : (r.rename ρ).KeepsApart a' b' := by
  refine ⟨h.ne_of_follows ha hb hab.1, fun hnew hnew' => ?_⟩
  obtain ⟨hold, rfl⟩ := ha.of_mem hnew
  obtain ⟨hold', rfl⟩ := hb.of_mem hnew'
  exact (hab.2 hold hold').map ρ

/-- A renamed step keeps apart what it has to, if no parameter becomes something that is fixed. -/
theorem violations_rename {rule : Rule} {args : List Term}
    (hfits : rule.Fits symbols r.params [] args)
    (hviolations : (Step.within r rule args).violations = [])
    (hfixed : ∀ p ∈ r.params, ρ p.name ≠ p.name → ρ p.name ∉ (Step.within r rule args).fixedEnds) :
    (Step.within (r.rename ρ) rule (args.map (Term.rename ρ))).violations = [] := by
  rw [Step.violations_within_eq_nil_iff] at hviolations ⊢
  have hfollows {n x : String} (hn : n ∈ rule.groups.flatten)
      (hx : x ∈ Distinct.leavesUnder (rule.bindings (args.map (Term.rename ρ))) n) :
      ∃ y ∈ Distinct.leavesUnder (rule.bindings args) n, Follows ρ r.params y x := by
    rcases Rule.mem_leavesUnder_rename hfits hx with ⟨p, hp, hleaf, rfl⟩ | hleaf
    · exact ⟨p.name, hleaf, .param hp⟩
    · refine ⟨x, Distinct.fixedUnder_subset_leavesUnder _ _ hleaf, .fixed fun p hp heq => ?_⟩
      by_contra hne
      exact hfixed p hp hne (heq ▸ List.mem_flatMap.mpr ⟨n, hn, hleaf⟩)
  intro m n hmn a ha b hb
  obtain ⟨a', ha', hfa⟩ := hfollows hmn.mem_flatten.1 ha
  obtain ⟨b', hb', hfb⟩ := hfollows hmn.mem_flatten.2 hb
  exact h.keepsApart_rename hfa hfb (hviolations m n hmn a' ha' b' hb')

/-- A renamed expression is the renamed step, provided that no new name is the text of something
else in an argument. -/
theorem toStep_rename {e : Expr} {step : Step} (hstep : e.toStep s r = (some step, []))
    (hfixed : ∀ p ∈ r.params, ρ p.name ≠ p.name → ρ p.name ∉ step.fixedEnds) :
    (e.renameArgs ρ).toStep s (r.rename ρ) = (some (step.rename ρ), []) := by
  cases e with
  | node root args =>
    obtain ⟨rule, ts, hrule, hts, htypes, hviolations, rfl⟩ := Expr.toStep_eq_iff.mp hstep
    have hfits : rule.Fits s.symbols r.params [] ts :=
      ⟨htypes, Expr.typed_instantiateEach (Expr.instantiateEach_eq_some_iff.mpr hts)⟩
    have hviolations' := h.violations_rename hfits hviolations hfixed
    rw [Expr.renameArgs, Expr.toStep_eq_iff]
    refine ⟨rule, ts.map (Term.rename ρ), hrule, h.map_instantiate_rename hts, ?_, hviolations', ?_⟩
    · simpa [Function.comp_def] using htypes
    · rw [Step.rename, hviolations, ← hviolations']
      rfl

/-- A renamed proof without faults cites the same rules. -/
theorem citedSteps_rename {proof : List Expr} (hfaults : r.stepFaults s proof = [])
    (hfixed : ∀ c ∈ r.citedSteps s proof, ∀ p ∈ r.params, ρ p.name ≠ p.name →
      ρ p.name ∉ c.2.fixedEnds) :
    (r.rename ρ).stepFaults s (proof.map (Expr.renameArgs ρ)) = [] ∧
      (r.rename ρ).citedSteps s (proof.map (Expr.renameArgs ρ)) =
        (r.citedSteps s proof).map (Prod.map id (Step.rename ρ)) := by
  have hsteps : ∀ e ∈ proof, (e.renameArgs ρ).toStep s (r.rename ρ) =
      ((e.toStep s r).1.map (Step.rename ρ), []) := by
    intro e he
    obtain ⟨step, hstep⟩ := Expr.exists_of_toStep (List.flatMap_eq_nil_iff.mp hfaults e he)
    rw [h.toStep_rename hstep, hstep, Option.map_some]
    exact hfixed (e.root, step) (List.mem_filterMap.mpr ⟨e, he, by rw [hstep]; rfl⟩)
  constructor
  · rw [Rule.stepFaults, List.flatMap_map, List.flatMap_eq_nil_iff]
    exact fun e he => by rw [hsteps e he]
  · rw [Rule.citedSteps, Rule.citedSteps, List.filterMap_map, List.map_filterMap]
    refine List.filterMap_congr fun e he => ?_
    rw [Function.comp_apply, hsteps e he, Option.map_map, Option.map_map, Expr.root_renameArgs]
    rfl

end Scope.Accepts

/-! ## Theorems -/

/-- What is reported of a replay depends only on which steps are useless. -/
theorem Snapshot.faults_congr {callees : List Token} {ss ts : List Snapshot}
    (h : ss.map useless = ts.map useless) : faults callees ss = faults callees ts := by
  have hfaults (us : List Snapshot) : faults callees us =
      (callees.zip (us.map useless)).filterMap fun x => if x.2 then some ⟨.uselessStep, x.1⟩ else none := by
    rw [faults, List.zip_map_right, List.filterMap_map]
    rfl
  rw [hfaults, hfaults, h]

/-- The symbols that have nothing to do with the change of a parameter. -/
def steady (ρ : String → String) (params : List Param) (symbols : List Symbol) : List Symbol :=
  symbols.filter fun x => ∀ p ∈ params, ρ p.name ≠ p.name → x.name ≠ p.name ∧ x.name ≠ ρ p.name

theorem mem_steady {x : Symbol} : x ∈ steady ρ params symbols ↔ x ∈ symbols ∧
    ∀ p ∈ params, ρ p.name ≠ p.name → x.name ≠ p.name ∧ x.name ≠ ρ p.name := by
  rw [steady, List.mem_filter, decide_eq_true_iff]

/-- A rule is well-formed without the constructors that it does not speak of. -/
theorem Rule.WellFormed.steady {r : Rule} (h : r.WellFormed symbols)
    (hctors : ∀ c ∈ r.ctors, ∀ p ∈ params, ρ p.name ≠ p.name →
      c.name ≠ p.name ∧ c.name ≠ ρ p.name) : r.WellFormed (steady ρ params symbols) := by
  have hterm {t : Term} (ht : t ∈ r.conclusions ++ r.hypotheses)
      (htyped : t.Typed symbols r.params []) : t.Typed (Axiomata.steady ρ params symbols) r.params [] :=
    htyped.of_ctors fun c hc hmem =>
      mem_steady.mpr ⟨hmem, hctors c (List.mem_flatMap.mpr ⟨t, ht, hc⟩)⟩
  exact ⟨h.nodup, fun t ht => hterm (List.mem_append_left _ ht) (h.conclusions t ht),
    fun t ht => hterm (List.mem_append_right _ ht) (h.hypotheses t ht)⟩

/-- The name of a symbol in scope resolves to something. -/
theorem Scope.resolve_ne_none {s : Scope} {x : Symbol} (hx : x ∈ s.symbols) :
    s.resolve x.name ≠ none := by
  intro hnone
  obtain ⟨htable, hdeps⟩ := resolve_eq_none_iff.mp hnone
  rcases List.mem_append.mp hx with hx | hx
  · obtain ⟨t, ht, hx⟩ := List.mem_flatMap.mp hx
    exact hdeps t ht (List.mem_map_of_mem hx)
  · exact htable (List.mem_map_of_mem hx)

/-- The symbols in scope have nothing to do with an accepted renaming. -/
theorem Scope.Accepts.symbols_subset_steady {s : Scope} (h : s.Accepts ρ params)
    (hfree : ∀ p ∈ params, s.resolve p.name = none) (hs : s.symbols ⊆ symbols) :
    s.symbols ⊆ steady ρ params symbols := by
  intro x hx
  refine mem_steady.mpr ⟨hs hx, fun p hp _ => ⟨fun heq => ?_, fun heq => ?_⟩⟩
  · exact resolve_ne_none hx (heq ▸ hfree p hp)
  · exact resolve_ne_none hx (heq ▸ h.free hp)

/-- An accepted renaming is one with respect to the symbols that have nothing to do with it. -/
theorem Scope.Accepts.renames {s : Scope} (h : s.Accepts ρ params)
    (hplain : ∀ p ∈ params, (∀ c ∈ p.name.toList, Lexer.isWordChar c) ∧
      ∀ c ∈ (ρ p.name).toList, Lexer.isWordChar c) (hsymbols : ∀ x ∈ symbols, x.Plain) :
    Renames ρ params (steady ρ params symbols) where
  inj := h.inj
  old_plain hp := (hplain _ hp).1
  new_plain hp := (hplain _ hp).2
  symbol_plain x hx := hsymbols x (mem_steady.mp hx).1
  steady hc hp := (mem_steady.mp hc).2 _ hp

/-- A renamed theorem is valid if the theorem is, and has the same useless steps. -/
theorem Renames.valid_rename {t : Theorem} (h : Renames ρ t.statement.params symbols)
    (hstatement : t.statement.WellFormed symbols)
    (hsteps : ∀ s ∈ t.steps, s.Whole symbols t.statement.params) :
    (t.rename ρ).valid = t.valid ∧
      (t.rename ρ).snapshots.map Snapshot.useless = t.snapshots.map Snapshot.useless := by
  obtain ⟨hremaining, huseless⟩ :=
    h.replay_rename hstatement.hypotheses hsteps hstatement.conclusions
  have hempty := congrArg List.isEmpty hremaining
  rw [List.isEmpty_map] at hempty
  exact ⟨hempty, huseless⟩

/-- When the declaration of a theorem reports nothing. -/
theorem Scope.elaborate_thm_eq_iff {s : Scope} {st : Statement} {r : Rule}
    (hr : (st.elaborate s).1 = some r) (proof : List Expr) :
    let cited := r.citedSteps s proof
    let t : Theorem := ⟨r, cited.map Prod.snd⟩
    (s.elaborate (.thm st proof)).symbols = [.thm t] ∧
      ((s.elaborate (.thm st proof)).faults = [] ↔ r.stepFaults s proof = [] ∧
        Snapshot.faults (cited.map Prod.fst) t.snapshots = [] ∧ t.valid) := by
  intro cited t
  have hnone : (st.elaborate s).2 = [] := (st.isSome_elaborate_iff s).mp (by rw [hr]; rfl)
  obtain ⟨hsymbols, hfaults⟩ :=
    s.declareThm_of_some (Prod.ext hr hnone) (Statement.free_of_elaborate hr) proof
  refine ⟨hsymbols, ?_⟩
  change (s.declareThm st proof).faults = [] ↔ _
  rw [hfaults, List.append_eq_nil_iff, List.append_eq_nil_iff, and_assoc]
  simp [cited, t]

/-- A renamed theorem is elaborated to what the theorem was, renamed. -/
theorem Scope.Accepts.elaborate_rename {s : Scope} {st : Statement} {r : Rule}
    (hr : (st.elaborate s).1 = some r) (h : s.Accepts ρ r.params)
    (hparams : s.badParam? [] (st.rename ρ).params = none) {proof : List Expr}
    (hfaults : (s.elaborate (.thm st proof)).faults = [])
    (hfixed : ∀ c ∈ r.citedSteps s proof, ∀ p ∈ r.params, ρ p.name ≠ p.name →
      ρ p.name ∉ c.2.fixedEnds)
    (hrenames : Renames ρ r.params symbols) (hwf : r.WellFormed symbols)
    (hwhole : ∀ c ∈ r.citedSteps s proof, c.2.Whole symbols r.params) :
    let t : Theorem := ⟨r, (r.citedSteps s proof).map Prod.snd⟩
    s.elaborate (.thm (st.rename ρ) (proof.map (Expr.renameArgs ρ))) =
        { symbols := [.thm (t.rename ρ)] } ∧
      (t.rename ρ).valid := by
  intro t
  obtain ⟨hstepFaults, huseless, hvalid⟩ := (Scope.elaborate_thm_eq_iff hr proof).2.mp hfaults
  obtain ⟨hvalid', huseless'⟩ := Renames.valid_rename (t := t) hrenames hwf
    (List.forall_mem_map.mpr hwhole)
  obtain ⟨hstepFaults', hcited⟩ := h.citedSteps_rename hstepFaults hfixed
  obtain ⟨hsymbols, hiff⟩ := Scope.elaborate_thm_eq_iff (Statement.elaborate_rename hr h hparams)
    (proof.map (Expr.renameArgs ρ))
  have ht : (⟨r.rename ρ, ((r.rename ρ).citedSteps s (proof.map (Expr.renameArgs ρ))).map Prod.snd⟩ :
      Theorem) = t.rename ρ := by
    rw [hcited, List.map_map, Theorem.rename, List.map_map]
    rfl
  have hcallees : ((r.rename ρ).citedSteps s (proof.map (Expr.renameArgs ρ))).map Prod.fst =
      (r.citedSteps s proof).map Prod.fst := by
    rw [hcited, List.map_map]
    rfl
  rw [ht] at hsymbols
  rw [ht, hcallees] at hiff
  have hfaults' := hiff.mpr ⟨hstepFaults', (Snapshot.faults_congr huseless').trans huseless,
    hvalid'.trans hvalid⟩
  exact ⟨congrArg₂ Outcome.mk hsymbols hfaults', hvalid'.trans hvalid⟩

/-- A theorem that elaborates without faults in any scope that written declarations lead to still does
so, and is valid, when its parameters get other names that are accepted there. This needs that for
every step of the proof no new name is among what the step keeps apart besides variables. In a scope
that was not compiled in order it also needs that neither the old nor the new name of a parameter is
that of a constructor in the rule of the step. -/
theorem elaborate_renamed_thm {deps : List Table}
    (hdeps : ∀ table ∈ deps, table.Compiled Decl.Written) {ds : List Decl}
    (hds : ∀ d ∈ ds, d.Written) {st : Statement} {proof : List Expr} {ρ : String → String}
    (hplain : ∀ p ∈ st.params, p.name.Plain ∧ (p.name.rename ρ).Plain)
    (hother : ∀ name, name ∉ st.params.map (·.name.text) → ρ name = name) :
    let s := ((Elaboration.start deps).run ds).scope
    ∀ r, (st.elaborate s).1 = some r → (s.elaborate (.thm st proof)).faults = [] →
      s.badParam? [] (st.rename ρ).params = none →
      (∀ c ∈ r.citedSteps s proof, ∀ p ∈ r.params, ρ p.name ≠ p.name →
        ρ p.name ∉ c.2.fixedEnds) →
      (s.Reachable Decl.Written ∨ ∀ c ∈ r.citedSteps s proof, ∀ d ∈ c.2.rule.ctors,
        ∀ p ∈ r.params, ρ p.name ≠ p.name → d.name ≠ p.name ∧ d.name ≠ ρ p.name) →
      let t : Theorem := ⟨r, (r.citedSteps s proof).map Prod.snd⟩
      s.elaborate (.thm (st.rename ρ) (proof.map (Expr.renameArgs ρ))) =
          { symbols := [.thm (t.rename ρ)] } ∧
        (t.rename ρ).valid := by
  intro s r hr hfaults hparams hfixed hctors t
  obtain ⟨hwf, -, hrparams, hbad⟩ := Statement.elaborate_eq_some hr
  obtain ⟨symbols, hsubset, hclosed⟩ :=
    ((hereditary_typed _).and hereditary_plain).exists_closed_run hdeps hds
  have haccepts : s.Accepts ρ r.params := hrparams ▸ Scope.accepts_of_badParam hparams hother
  have hold : ∀ p ∈ r.params, s.resolve p.name = none ∧
      (∀ c ∈ p.name.toList, Lexer.isWordChar c) ∧ ∀ c ∈ (ρ p.name).toList, Lexer.isWordChar c := by
    rw [hrparams]
    intro p hp
    obtain ⟨q, hq, rfl⟩ := List.mem_map.mp hp
    exact ⟨Scope.resolve_eq_none_of_badParam hbad hq, hplain q hq⟩
  have hknown : s.symbols ⊆ steady ρ r.params symbols :=
    haccepts.symbols_subset_steady (fun p hp => (hold p hp).1) hsubset
  have hrenames : Renames ρ r.params (steady ρ r.params symbols) :=
    haccepts.renames (fun p hp => (hold p hp).2) fun x hx => (hclosed x hx).2
  refine haccepts.elaborate_rename hr hparams hfaults hfixed hrenames (hwf.mono hknown) fun c hc => ?_
  have hsteps := ((Scope.elaborate_thm_eq_iff hr proof).2.mp hfaults).1
  obtain ⟨e, he, htoStep⟩ := Rule.exists_of_mem_citedSteps (List.mem_map_of_mem hc)
  obtain ⟨⟨x, hx, hrule⟩, hadmits⟩ :=
    Expr.admits_of_toStep (List.flatMap_eq_nil_iff.mp hsteps e he) htoStep
  refine ⟨?_, hadmits.fits.mono hknown⟩
  rcases hctors with hs | hctors
  · exact (hs.wellFormed hx hrule).mono hknown
  · exact ((hclosed x (hsubset hx)).1.wellFormed hrule).steady (hctors c hc)

/-- Two parameters that have to be apart change places. -/
theorem elaborate_renamed_thm_swapped :
    let logic := Source.ofText "logic" ("type P S term P all(S x, P p) \x7b all x p \x7d " ++
      "axiom gen(S x, P p) \x7b #diff x p -| p |- all(x, p) \x7d")
    let word (text : String) : Token := ⟨.word, text, ⟨0, 0⟩⟩
    let name (text : String) : Expr := .node (word text) []
    let inner : Expr := .node (word "all") [name "y", name "p"]
    let st : Statement :=
      { name := word "two"
        params := [⟨word "S", word "x"⟩, ⟨word "S", word "y"⟩, ⟨word "P", word "p"⟩]
        clauses :=
          { conclusions := [.node (word "all") [name "x", inner]]
            hypotheses := [name "p"]
            groups := [[word "x", word "y", word "p"]] } }
    let proof : List Expr := [.node (word "gen") [name "x", inner],
      .node (word "gen") [name "y", name "p"]]
    let ρ (n : String) : String := if n = "x" then "y" else if n = "y" then "x" else n
    let s : Scope := { deps := [(logic.compile []).table] }
    (s.elaborate (.thm st proof)).faults = [] ∧
      ∃ t : Theorem, t.statement.paramNames = ["y", "x", "p"] ∧ t.valid ∧
        s.elaborate (.thm (st.rename ρ) (proof.map (Expr.renameArgs ρ))) =
          { symbols := [.thm t] } := by
  intro logic word name inner st proof ρ s
  have hwritten : ∀ d ∈ logic.outline.decls, d.Written := fun d hd => ⟨logic, hd⟩
  have hdeps : ∀ table ∈ [(logic.compile []).table], table.Compiled Decl.Written :=
    List.forall_mem_singleton.mpr (.run (by simp) hwritten)
  have hempty : Scope.Reachable Decl.Written { deps := [] } := .empty
  have hreach : s.Reachable Decl.Written := hempty.compile hwritten
  have hplain : ∀ p ∈ st.params, p.name.Plain ∧ (p.name.rename ρ).Plain := by
    decide +kernel
  have hother : ∀ n, n ∉ st.params.map (·.name.text) → ρ n = n := by
    intro n hn
    simp_all [st, word, ρ]
  obtain ⟨hfaults, hparams, hsome, hview⟩ : (s.elaborate (.thm st proof)).faults = [] ∧
      s.badParam? [] (st.rename ρ).params = none ∧ (st.elaborate s).1.isSome ∧
      ((st.elaborate s).1.all fun r => r.paramNames == ["x", "y", "p"] &&
        (r.citedSteps s proof).all fun c => r.params.all fun p =>
          !c.2.fixedEnds.contains (ρ p.name)) := by
    decide +kernel
  obtain ⟨r, hr⟩ := Option.isSome_iff_exists.mp hsome
  rw [hr, Option.all_some, Bool.and_eq_true, beq_iff_eq, List.all_eq_true] at hview
  have hfixed : ∀ c ∈ r.citedSteps s proof, ∀ p ∈ r.params, ρ p.name ≠ p.name →
      ρ p.name ∉ c.2.fixedEnds :=
    fun c hc p hp _ => by simpa using List.all_eq_true.mp (hview.2 c hc) p hp
  obtain ⟨helaborate, hvalid⟩ := elaborate_renamed_thm hdeps
    (by simp : ∀ d ∈ ([] : List Decl), d.Written) hplain hother r hr hfaults hparams hfixed
    (.inl hreach)
  refine ⟨hfaults, _, ?_, hvalid, helaborate⟩
  change (r.params.map (Param.rename ρ)).map Param.name = _
  have hnames : (r.params.map (Param.rename ρ)).map Param.name = r.paramNames.map ρ := by
    rw [List.map_map, Rule.paramNames, List.map_map]
    rfl
  rw [hnames, hview.1]
  rfl

/-- What a renamed parameter can meet. In the first scope, a name that a rule keeps apart from its
parameter but does not bind. In the second one, what a constant is shown as. In the third one it leaves
a constructor that a rule speaks of, although it no longer means anything in the scope: the statement
is proved only as long as its parameter has that name. -/
theorem renamed_param_meets_name :
    let unbound := Source.ofText "base" "type P axiom ax(P a) \x7b #diff a x |- a \x7d"
    let shown := Source.ofText "base"
      "type P term P zero() \x7b x \x7d axiom ax(P a, P b) \x7b #diff a b |- a \x7d"
    let old := Source.ofText "sig" "type P term P y() \x7b y \x7d"
    let logic := Source.ofText "logic" "axiom ax() \x7b |- y \x7d"
    let new := Source.ofText "sig" "type P"
    let word (text : String) : Token := ⟨.word, text, ⟨0, 0⟩⟩
    let step (args : List String) : Expr := .node (word "ax") (args.map fun a => .node (word a) [])
    let st : Statement :=
      ⟨word "t", [⟨word "P", word "y"⟩], { conclusions := [.node (word "y") []] }⟩
    let ρ := Function.update id "y" "x"
    let broken (deps : List Table) (step : Expr) (faults : List Fault) : Prop :=
      let s : Scope := { deps }
      (s.elaborate (.thm st [step])).faults = [] ∧ s.badParam? [] (st.rename ρ).params = none ∧
        (s.elaborate (.thm (st.rename ρ) [step.renameArgs ρ])).faults.map Diagnostic.fault = faults
    broken [(unbound.compile []).table] (step ["y"]) [.notDistinct] ∧
      broken [(shown.compile []).table] (step ["y", "zero"]) [.notDistinct] ∧
      broken [(new.compile []).table, (logic.compile [(old.compile []).table]).table] (step [])
        [.uselessStep, .unproved] := by
  intro unbound shown old logic new word step st ρ broken
  refine ⟨?_, ?_, ?_⟩
  all_goals
    change _ = [] ∧ _ = none ∧ _ = _
    decide +kernel

end Axiomata
