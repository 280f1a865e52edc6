import Axiomata.Proofs.Apartness
import Axiomata.Proofs.Typing

/-!
# Derivations from postulates

What a statement claims to follow is to be derivable from its hypotheses by postulates alone
(`Derivable`). Theorems are not part of a derivation, so their uses have to be eliminated: a
derivation for the statement of a theorem becomes one for another statement when arguments of that
statement are put for the parameters of the theorem (`Derivable.subst`). This rests on substitutions
that compose and on conditions that are met twice: what a postulate keeps apart is declared apart by
the theorem, and what the theorem declares apart is declared apart by the statement.
-/

namespace Axiomata

variable {symbols : List Symbol}

/-! ## Rules applied within a statement -/

/-- Arguments that a rule can be applied to in a derivation for a statement: terms of the right types
over the parameters of the statement. Where the rule keeps two parameters apart, the variables of
their arguments are different, and the statement declares them apart. -/
structure Rule.Admits (symbols : List Symbol) (r goal : Rule) (args : List Term) : Prop where
  fits : r.Fits symbols goal.params [] args
  apart : ∀ a b, Distinct.Apart r.groups a b → ∀ s t, (r.bindings args).get? a = some s →
    (r.bindings args).get? b = some t → ∀ x ∈ s.vars, ∀ y ∈ t.vars,
      x ≠ y ∧ Distinct.Apart goal.groups x y

/-- The terms that follow from the hypotheses of a statement by the postulates among the symbols. -/
inductive Derivable (symbols : List Symbol) (goal : Rule) : Term → Prop
  | hypothesis {t : Term} (h : t ∈ goal.hypotheses) : Derivable symbols goal t
  | postulate {r : Rule} {args : List Term} {t : Term} (hr : .postulate r ∈ symbols)
    (hargs : r.Admits symbols goal args)
    (hhyps : ∀ h ∈ r.hypothesesOf args, Derivable symbols goal h) (ht : t ∈ r.conclusionsOf args) :
    Derivable symbols goal t

theorem Derivable.mono {symbols' : List Symbol} (hs : symbols ⊆ symbols') {goal : Rule} {t : Term}
    (h : Derivable symbols goal t) : Derivable symbols' goal t := by
  induction h with
  | hypothesis h => exact .hypothesis h
  | postulate hr hargs _ ht ih => exact .postulate (hs hr) ⟨hargs.fits.mono hs, hargs.apart⟩ ih ht

/-- A step without violations meets the conditions of its rule. -/
theorem Rule.Admits.of_violations {goal r : Rule} {args : List Term}
    (hfits : r.Fits symbols goal.params [] args)
    (h : (Step.within goal r args).violations = []) : r.Admits symbols goal args := by
  refine ⟨hfits, fun a b hab s t hs ht x hx y hy => ?_⟩
  have hparam {name x : String} {u : Term} (hu : (r.bindings args).get? name = some u)
      (hx : x ∈ u.vars) : x ∈ goal.paramNames := by
    obtain ⟨p, hp, rfl⟩ := (hfits.typed u (mem_args_of_get?_bindings hu).2).exists_param hx
    exact List.mem_map_of_mem hp
  have hleaf {name x : String} {u : Term} (hu : (r.bindings args).get? name = some u)
      (hx : x ∈ u.vars) : x ∈ Distinct.leavesUnder (r.bindings args) name :=
    (Distinct.mem_leavesUnder_iff hu).mpr (u.vars_subset_ends hx)
  have hkept := Step.violations_within_eq_nil_iff.mp h a b hab x (hleaf hs hx) y (hleaf ht hy)
  exact ⟨hkept.1, hkept.2 (hparam hs hx) (hparam ht hy)⟩

/-! ## Putting arguments into a derivation -/

/-- Arguments put into what a rule says, followed by another substitution. -/
theorem Rule.subst_bindings {r : Rule} {args : List Term} (hlen : args.length = r.params.length)
    {t : Term} (ht : t.Typed symbols r.params []) (σ : Subst) :
    (t.subst (r.bindings args)).subst σ = t.subst (r.bindings (args.map (Term.subst σ))) := by
  apply Term.subst_subst
  intro x hx
  obtain ⟨a, ha, hmap⟩ := exists_binding_map hlen ht (Term.subst σ) x hx
  rw [ha, hmap, Option.map_some, Option.some_or]

namespace Rule.Admits

variable {goal l r : Rule} {args ts : List Term}

/-- Arguments within a statement `l` become arguments within a statement that `l` is applied in. -/
theorem subst (hl : l.paramNames.Nodup) (h : r.Admits symbols l args)
    (hts : l.Admits symbols goal ts) :
    r.Admits symbols goal (args.map (Term.subst (l.bindings ts))) := by
  have hsubst : ∀ a ∈ args, (a.subst (l.bindings ts)).type = a.type ∧
      (a.subst (l.bindings ts)).Typed symbols goal.params [] :=
    fun a ha => (h.fits.typed a ha).subst (hts.fits.exists_binding hl)
  refine ⟨⟨?_, ?_⟩, ?_⟩
  · rw [← h.fits.types, List.map_map]
    exact List.map_congr_left fun a ha => (hsubst a ha).1
  · intro u hu
    obtain ⟨a, ha, rfl⟩ := List.mem_map.mp hu
    exact (hsubst a ha).2
  · -- A variable of an argument now comes from a parameter of `l` that was there before.
    have horigin {name x : String} {u : Term}
        (hu : (r.bindings (args.map (Term.subst (l.bindings ts)))).get? name = some u)
        (hx : x ∈ u.vars) : ∃ v, (r.bindings args).get? name = some v ∧
          ∃ y ∈ v.vars, ∃ a, (l.bindings ts).get? y = some a ∧ x ∈ a.vars := by
      rw [get?_bindings_map] at hu
      obtain ⟨v, hv, rfl⟩ := Option.map_eq_some_iff.mp hu
      refine ⟨v, hv, Term.exists_of_mem_vars_subst (fun y hy => ?_) hx⟩
      obtain ⟨p, hp, rfl⟩ := (h.fits.typed v (mem_args_of_get?_bindings hv).2).exists_param hy
      exact get?_bindings_isSome hts.fits.length_eq hp
    intro a b hab s t hs ht x hx y hy
    obtain ⟨s', hs', x', hx', u, hu, hxu⟩ := horigin hs hx
    obtain ⟨t', ht', y', hy', v, hv, hyv⟩ := horigin ht hy
    have happart : Distinct.Apart l.groups x' y' := (h.apart a b hab s' t' hs' ht' x' hx' y' hy').2
    exact hts.apart x' y' happart u v hu hv x hxu y hyv

end Rule.Admits

/-- A derivation for one statement, with arguments put for its parameters, is one for another
statement in which the hypotheses can be derived. -/
theorem Derivable.subst (hpostulates : ∀ r, .postulate r ∈ symbols → r.WellFormed symbols)
    {goal l : Rule} (hl : l.paramNames.Nodup) {ts : List Term} (hts : l.Admits symbols goal ts)
    (hhyps : ∀ h ∈ l.hypothesesOf ts, Derivable symbols goal h) {t : Term}
    (ht : Derivable symbols l t) : Derivable symbols goal (t.subst (l.bindings ts)) := by
  induction ht with
  | hypothesis h => exact hhyps _ (List.mem_map_of_mem h)
  | @postulate r args t hr hargs _ ht ih =>
    have hwf := hpostulates r hr
    refine .postulate hr (hargs.subst hl hts) ?_ ?_
    · intro h hh
      obtain ⟨u, hu, rfl⟩ := List.mem_map.mp hh
      rw [← Rule.subst_bindings hargs.fits.length_eq (hwf.hypotheses u hu)]
      exact ih _ (List.mem_map_of_mem hu)
    · obtain ⟨c, hc, rfl⟩ := List.mem_map.mp ht
      rw [Rule.subst_bindings hargs.fits.length_eq (hwf.conclusions c hc)]
      exact List.mem_map_of_mem hc

/-! ## Theorems in place of postulates -/

/-- The conclusions of every theorem among the symbols are derivable. -/
def Proved (symbols : List Symbol) : Prop :=
  ∀ t : Theorem, .thm t ∈ symbols →
    ∀ c ∈ t.statement.conclusions, Derivable symbols t.statement c

/-- Postulates and theorems can be applied alike. -/
theorem Proved.derivable (h : Proved symbols)
    (hwf : ∀ x ∈ symbols, ∀ r, x.rule? = some r → r.WellFormed symbols) {x : Symbol}
    (hx : x ∈ symbols) {goal r : Rule} (hr : x.rule? = some r) {args : List Term}
    (hargs : r.Admits symbols goal args)
    (hhyps : ∀ h ∈ r.hypothesesOf args, Derivable symbols goal h) :
    ∀ c ∈ r.conclusionsOf args, Derivable symbols goal c := by
  intro c hc
  cases x with
  | type _ | ctor _ => cases hr
  | postulate r' =>
    cases hr
    exact .postulate hx hargs hhyps hc
  | thm t =>
    cases hr
    obtain ⟨u, hu, rfl⟩ := List.mem_map.mp hc
    exact Derivable.subst (fun r hr => hwf _ hr r rfl) (hwf _ hx _ rfl).nodup hargs hhyps
      (h t hx u hu)

end Axiomata
