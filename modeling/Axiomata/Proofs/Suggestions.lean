import Axiomata.Proofs.Canonical
import Axiomata.Proofs.Matching
import Axiomata.Proofs.Replay
import Axiomata.Proofs.TypedSymbols

/-!
# Suggestions

A step that takes no goal off the list suggests terms for its holes. Every suggestion makes one of
its conclusions into a goal, so that the step takes it off when it is filled like that
(`Step.useless_run_filled`). All terms that would do so are suggested, as far as their texts go
(`Step.exists_suggestion`): the matcher is complete for terms with names of word characters, and
those of a compiled theorem and of its goals are (`Term.Typed.plain`), holes of earlier steps
included.

Three functions have to agree on what it is to fill holes. The holes of a step are among its
arguments, each a hole or without holes. Then filling the arguments, as a suggestion is carried out,
is the same as filling the conclusions, which is what the matcher knows of
(`Step.Typed.conclusions_materialize`).
-/

namespace Axiomata

/-! ## Names of compiled terms -/

/-- Names of word characters are passed on from file to file. -/
theorem hereditary_plain : Hereditary Decl.Written fun _ x => x.Plain where
  mono _ h := h
  adds _ _ _ hd _ hadds := hadds.plain hd

namespace Term.Typed

variable {symbols : List Symbol} {vars holes : List Param} {t : Term}

/-- A typed term is plain if its symbols and parameters are. -/
theorem plain (hsymbols : ∀ x ∈ symbols, x.Plain)
    (hparams : ∀ p ∈ vars ++ holes, ∀ c ∈ p.name.toList, Lexer.isWordChar c)
    (h : t.Typed symbols vars holes) : t.Plain := by
  induction h with
  | var h => exact .intro (hparams _ (List.mem_append_left _ h)) (by simp [args])
  | hole h => exact .intro (hparams _ (List.mem_append_right _ h)) (by simp [args])
  | app hc _ _ ih => exact .intro (hsymbols _ hc).name ih

/-- A term that is typed without holes has none. -/
theorem holes_eq_nil (h : t.Typed symbols vars []) : t.holes = [] := by
  induction h with
  | var h => rfl
  | hole h => simp at h
  | app _ _ _ ih => simpa using ih

end Term.Typed

namespace Step

/-! ## Filling a step -/

/-- The step with its holes filled. -/
def filled (s : Step) (σ : Suggestion) : Step := { s with args := s.args.map (Term.fill σ) }

variable {symbols : List Symbol} {vars : List Param} {s : Step}

/-- Only arguments that are holes can be filled. -/
theorem Typed.fill_arg (h : s.Typed symbols vars) {a : Term} (ha : a ∈ s.args)
    (hwhole : a.isHole = false) (σ : Suggestion) : a.fill σ = a := by
  rcases h.args.whole a ha with hhole | htyped
  · rw [hwhole] at hhole
    cases hhole
  · exact Term.fill_eq_self htyped.holes_eq_nil

/-- A suggestion is carried out by filling the step. -/
theorem Typed.applied_filled (h : s.Typed symbols vars) (σ : Suggestion) :
    (s.filled σ).applied = s.materialize σ := by
  rw [applied, materialize, filled]
  congr 1
  refine List.map_congr_left fun a ha => ?_
  cases a with
  | var n y => rfl
  | hole n y => rfl
  | app c ts => exact h.fill_arg ha rfl σ

/-- There is nothing to fill in a step without holes. -/
theorem Typed.filled_eq_self (h : s.Typed symbols vars) (hholes : s.usesHoles = false)
    (σ : Suggestion) : s.filled σ = s := by
  rw [usesHoles, List.any_eq_false] at hholes
  have hargs : s.args.map (Term.fill σ) = s.args.map id :=
    List.map_congr_left fun a ha => h.fill_arg ha (by simpa using hholes a ha) σ
  rw [filled, hargs, List.map_id]

/-- Filling the arguments fills the conclusions. -/
theorem conclusions_filled (hwf : s.rule.WellFormed symbols) (σ : Suggestion) :
    (s.filled σ).conclusions = s.conclusions.map (Term.fill σ) := by
  rw [conclusions, conclusions, filled, Rule.conclusionsOf, Rule.conclusionsOf, List.map_map]
  refine List.map_congr_left fun c hc => ?_
  refine (Term.fill_subst (hwf.conclusions c hc).holes_eq_nil fun n => ?_).symm
  exact s.rule.get?_bindings_map s.args (Term.fill σ) n

/-- The conclusions of a filled step are the filled conclusions. -/
theorem Typed.conclusions_materialize (h : s.Typed symbols vars) (hwf : s.rule.WellFormed symbols)
    (σ : Suggestion) : (s.materialize σ).conclusions = s.conclusions.map (Term.fill σ) := by
  rw [← h.applied_filled]
  exact conclusions_filled hwf σ

/-! ## What is suggested -/

/-- A suggestion makes a conclusion of the step match a goal. -/
theorem mem_suggestions_iff {goals : List Term} {σ : Suggestion} :
    σ ∈ s.suggestions goals ↔ ∃ g ∈ goals, ∃ c ∈ s.conclusions, c.match? g = some σ := by
  simp only [suggestions, candidates, List.mem_map, List.mem_flatMap, List.mem_filterMap,
    Option.map_eq_some_iff]
  constructor
  · rintro ⟨_, ⟨g, hg, c, hc, σ, hσ, rfl⟩, rfl⟩
    exact ⟨g, hg, c, hc, hσ⟩
  · rintro ⟨g, hg, c, hc, hσ⟩
    exact ⟨(c, g, σ), ⟨g, hg, c, hc, σ, hσ, rfl⟩, rfl⟩

/-- With its holes filled as suggested, a step takes a goal off the list. -/
theorem useless_run_filled (hwf : s.rule.WellFormed symbols) (hypotheses : List Term)
    {goals : List Term} {σ : Suggestion} (h : σ ∈ s.suggestions goals) :
    ((s.filled σ).run hypotheses goals).useless = false := by
  obtain ⟨g, hg, c, hc, hσ⟩ := mem_suggestions_iff.mp h
  rw [useless_run_eq_false_iff, conclusions_filled hwf]
  exact ⟨g, hg, List.mem_map.mpr
    ⟨c.fill σ, List.mem_map_of_mem hc, (Term.match?_sound hσ).1⟩⟩

/-- Terms that make a conclusion into a goal are suggested. -/
theorem exists_suggestion {goals : List Term} {g c : Term} (hg : g ∈ goals) (hc : c ∈ s.conclusions)
    (hg' : g.Plain) (hc' : c.Plain) {ρ : Suggestion} (hρ : ∀ b ∈ ρ, b.2.Plain)
    (h : (c.fill ρ).canonical = g.canonical) :
    ∃ σ ∈ s.suggestions goals, ∀ n ∈ c.holes, σ.text? n = some (ρ.text n) := by
  have hplain : (c.fill ρ).Plain :=
    hc'.fill fun n _ u hu => hρ (n, u) (Subst.mem_of_get? hu)
  obtain ⟨σ, hσ, hagrees⟩ := Term.match?_complete hplain hg' h
  exact ⟨σ, mem_suggestions_iff.mpr ⟨g, hg, c, hc, hσ⟩, hagrees⟩

end Step

/-! ## Compiled theorems -/

/-- The goals in front of a step. -/
def Theorem.goalsAt (t : Theorem) (k : Nat) : List Term :=
  remaining t.statement.conclusions (t.snapshots.take k)

/-- A snapshot is what the step makes of the goals in front of it. -/
theorem Theorem.snapshot_eq_run {t : Theorem} {k : Nat} {step : Step} {snapshot : Snapshot}
    (hstep : t.steps[k]? = some step) (hsnapshot : t.snapshots[k]? = some snapshot) :
    snapshot = step.run t.statement.hypotheses (t.goalsAt k) := by
  rw [snapshots, getElem?_replay, hstep] at hsnapshot
  exact (Option.some.inj hsnapshot).symm

section Closed

variable {symbols : List Symbol} {t : Theorem} {step : Step}

/-- Symbols that are typed with respect to each other and have names of word characters. -/
def Proper (symbols : List Symbol) : Prop :=
  Closed (fun symbols x => x.Typed symbols ∧ x.Plain) symbols

variable (h : Proper symbols) (ht : .thm t ∈ symbols)

include h ht

theorem Proper.typed : t.Typed symbols := (h (.thm t) ht).1

/-- The rules that a theorem uses are well formed and have plain parameters. -/
theorem Proper.rule_of_step (hstep : step ∈ t.steps) :
    step.rule.WellFormed symbols ∧
      ∀ p ∈ step.rule.params, ∀ c ∈ p.name.toList, Lexer.isWordChar c := by
  obtain ⟨x, hx, hrule⟩ := ((h.typed ht).steps step hstep).rule
  exact ⟨(h x hx).1.wellFormed hrule, (h x hx).2.params step.rule hrule⟩

/-- The terms of a theorem have names of word characters, if their holes are those of parameters of
rules that its steps use. -/
theorem Proper.plain {steps : List Step} (hsteps : steps ⊆ t.steps) {u : Term}
    (hu : u.Typed symbols t.statement.params (steps.flatMap (·.rule.params))) : u.Plain := by
  refine hu.plain (fun x hx => (h x hx).2) (List.forall_mem_append.mpr ⟨?_, fun p hp => ?_⟩)
  · exact (h (.thm t) ht).2.params t.statement rfl
  · obtain ⟨s, hs, hp⟩ := List.mem_flatMap.mp hp
    exact (h.rule_of_step ht (hsteps hs)).2 p hp

end Closed

/-- Of a step that took no goal off the list in the proof of a compiled theorem: each of its
suggestions makes one of its conclusions into a goal in front of it, and the step takes a goal off
the list when it is filled like that; all terms with names of word characters that make a conclusion
into a goal are suggested, as far as the texts for the holes of the conclusion go; and without holes
there is nothing to suggest. -/
theorem suggestions_of_useless_step {deps : List Table}
    (hdeps : ∀ table ∈ deps, table.Compiled Decl.Written) {ds : List Decl}
    (hds : ∀ d ∈ ds, d.Written) {t : Theorem}
    (ht : .thm t ∈ ((Elaboration.start deps).run ds).scope.symbols) {k : Nat} {step : Step}
    (hstep : t.steps[k]? = some step) {snapshot : Snapshot}
    (hsnapshot : t.snapshots[k]? = some snapshot) (huseless : snapshot.useless) :
    let goals := t.goalsAt k
    (∀ σ ∈ snapshot.suggestions,
      (∃ g ∈ goals, ∃ (j : Nat) (c : Term), (step.materialize σ).conclusions[j]? = some c ∧
        c.canonical = g.canonical ∧ step.conclusions[j]?.bind (·.match? g) = some σ) ∧
      (step.filled σ).applied = step.materialize σ ∧
      ((step.filled σ).run t.statement.hypotheses goals).useless = false) ∧
    (∀ ρ : Suggestion, (∀ b ∈ ρ, b.2.Plain) → ∀ g ∈ goals, ∀ (j : Nat) (p c : Term),
      step.conclusions[j]? = some p → (step.materialize ρ).conclusions[j]? = some c →
      c.canonical = g.canonical →
      ∃ σ ∈ snapshot.suggestions, ∀ n ∈ p.holes, σ.text? n = some (ρ.text n)) ∧
    (step.usesHoles = false → snapshot.suggestions = []) := by
  intro goals
  obtain ⟨symbols, hsubset, hclosed⟩ :=
    ((hereditary_typed _).and hereditary_plain).exists_closed_run hdeps hds
  have hproper : Proper symbols := hclosed
  have hmem : step ∈ t.steps := List.mem_of_getElem? hstep
  have htyped := (hproper.typed (hsubset ht)).steps step hmem
  have hwf := (hproper.rule_of_step (hsubset ht) hmem).1
  have hconclusions := htyped.conclusions_materialize hwf
  have hrun : snapshot = ⟨goals, true, step.suggestions goals⟩ := by
    rw [t.snapshot_eq_run hstep hsnapshot] at huseless ⊢
    exact Step.run_of_useless huseless
  have hfilled : ∀ σ ∈ snapshot.suggestions,
      ((step.filled σ).run t.statement.hypotheses goals).useless = false := by
    rw [hrun]
    exact fun σ hσ => Step.useless_run_filled hwf _ hσ
  refine ⟨fun σ hσ => ⟨?_, htyped.applied_filled σ, hfilled σ hσ⟩, ?_, fun hholes => ?_⟩
  · rw [hrun, Step.mem_suggestions_iff] at hσ
    obtain ⟨g, hg, p, hp, hmatch⟩ := hσ
    obtain ⟨j, hj⟩ := List.mem_iff_getElem?.mp hp
    refine ⟨g, hg, j, p.fill σ, ?_, (Term.match?_sound hmatch).1, ?_⟩
    · rw [hconclusions, List.getElem?_map, hj, Option.map_some]
    · rw [hj, Option.bind_some, hmatch]
  · intro ρ hρ g hg j p c hp hc htext
    rw [hconclusions, List.getElem?_map, hp, Option.map_some] at hc
    obtain rfl := Option.some.inj hc
    have hp' : p ∈ step.conclusions := List.mem_of_getElem? hp
    have hone : [step] ⊆ t.steps := by simpa using hmem
    have hplain : p.Plain :=
      hproper.plain (hsubset ht) hone (by simpa using htyped.conclusions p hp')
    have hplain' : g.Plain :=
      hproper.plain (hsubset ht) (List.take_subset (k + 1) t.steps)
        ((hproper.typed (hsubset ht)).goals k snapshot hsnapshot g (by rw [hrun]; exact hg))
    rw [hrun]
    exact Step.exists_suggestion hg hp' hplain' hplain hρ htext
  · rw [List.eq_nil_iff_forall_not_mem]
    intro σ hσ
    have huseful := hfilled σ hσ
    rw [htyped.filled_eq_self hholes, ← t.snapshot_eq_run hstep hsnapshot, huseless] at huseful
    cases huseful

/-- The hole occurs twice, and has the name of a variable of the goal. -/
theorem suggestions_of_useless_step_repeated_hole :
    let logic := Source.ofText "logic"
      "type P term P imp(P a, P b) \x7b (a -> b) \x7d axiom refl(P a) \x7b |- imp(a, a) \x7d"
    let user := Source.ofText "user"
      "thm t(P a, P b) \x7b |- imp(imp(b, a), imp(b, a)) \x7d = \x7b refl \x7d"
    let deps := [(logic.compile []).table]
    (∀ table ∈ deps, table.Compiled Decl.Written) ∧ (∀ d ∈ user.outline.decls, d.Written) ∧
      ∃ (t : Theorem) (step : Step) (snapshot : Snapshot) (σ : Suggestion),
        t ∈ (user.compile deps).theorems ∧ t.steps[0]? = some step ∧
        t.snapshots[0]? = some snapshot ∧ snapshot.useless ∧ σ ∈ snapshot.suggestions ∧
        σ.text? "a" = some "imp(b,a)" ∧
        ((step.filled σ).run t.statement.hypotheses (t.goalsAt 0)).useless = false := by
  intro logic user deps
  have hdeps : ∀ table ∈ deps, table.Compiled Decl.Written :=
    List.forall_mem_singleton.mpr (.run (by simp) fun d hd => ⟨logic, hd⟩)
  have hds : ∀ d ∈ user.outline.decls, d.Written := fun d hd => ⟨user, hd⟩
  obtain ⟨t, ht, hview⟩ := Option.bind_eq_some_iff.mp <| show
    ((user.compile deps).theorems[0]?.bind fun t => t.steps[0]?.bind fun _ =>
      t.snapshots[0]?.bind fun snapshot => snapshot.suggestions[0]?.map fun σ =>
        (snapshot.useless, σ.text? "a")) = some (true, some "imp(b,a)") by decide +kernel
  obtain ⟨step, hstep, hview⟩ := Option.bind_eq_some_iff.mp hview
  obtain ⟨snapshot, hsnapshot, hview⟩ := Option.bind_eq_some_iff.mp hview
  obtain ⟨σ, hσ, hview⟩ := Option.map_eq_some_iff.mp hview
  rw [Prod.mk.injEq] at hview
  have hmem : t ∈ (user.compile deps).theorems := List.mem_of_getElem? ht
  have hsymbol : .thm t ∈ ((Elaboration.start deps).run user.outline.decls).scope.symbols :=
    List.mem_append_right _ (CompiledFile.mem_theorems.mp hmem)
  have hσ' : σ ∈ snapshot.suggestions := List.mem_of_getElem? hσ
  have hall := suggestions_of_useless_step hdeps hds hsymbol hstep hsnapshot hview.1
  exact ⟨hdeps, hds, t, step, snapshot, σ, hmem, hstep, hsnapshot, hview.1, hσ', hview.2,
    (hall.1 σ hσ').2.2⟩

end Axiomata
