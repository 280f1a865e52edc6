import Axiomata.Proofs.Replay
import Mathlib.Order.Bounds.Basic

/-!
# A valid proof derives its goals

The consequences of hypotheses under given steps are the least set of texts that has the hypotheses
and, with all hypotheses of a step, also its conclusions (`isLeast_consequences`). They are reached by
derivations, which are finite and in which a text stands on others that were there before it
(`Derivation`). A replay runs backwards, so it yields a derivation from its end: one for the goals
behind a step is extended to one for the goals in front of it (`Step.derives_of_run`). That a step may
ask for the very goal it took off the list does no harm, since the goal has then been derived by the
steps that follow.
-/

namespace Axiomata

section

variable {hypotheses goals : List Term} {steps : List Step}

/-! ## Consequences -/

/-- Sets of texts that steps do not lead out of. -/
structure ClosedUnder (hypotheses : List Term) (steps : List Step) (S : Set String) : Prop where
  assumed : ∀ h ∈ hypotheses, h.canonical ∈ S
  step : ∀ s ∈ steps, s.Transmits (· ∈ S)

/-- What all closed sets have in common. -/
def consequences (hypotheses : List Term) (steps : List Step) : Set String :=
  {x | ∀ S, ClosedUnder hypotheses steps S → x ∈ S}

/-- Consequences are the least set that is closed under the hypotheses and the steps. -/
theorem isLeast_consequences (hypotheses : List Term) (steps : List Step) :
    IsLeast {S | ClosedUnder hypotheses steps S} (consequences hypotheses steps) := by
  refine ⟨⟨fun h hh S hS => hS.assumed h hh, fun s hs hhyps c hc S hS => ?_⟩,
    fun S hS x hx => hx S hS⟩
  exact hS.step s hs (fun h hh => hhyps h hh S hS) c hc

/-! ## Derivations -/

/-- A text that is assumed, or that a step concludes from given texts. -/
def Justified (hypotheses : List Term) (steps : List Step) (texts : List String) (x : String) : Prop :=
  (∃ h ∈ hypotheses, h.canonical = x) ∨
    ∃ s ∈ steps, (∀ h ∈ s.hypotheses, h.canonical ∈ texts) ∧ ∃ c ∈ s.conclusions, c.canonical = x

/-- Texts, the last one first, each of which is justified by those before it and is none of them. -/
inductive Derivation (hypotheses : List Term) (steps : List Step) : List String → Prop
  | nil : Derivation hypotheses steps []
  | cons {texts : List String} {x : String} (hx : Justified hypotheses steps texts x)
    (hnew : x ∉ texts) (h : Derivation hypotheses steps texts) :
    Derivation hypotheses steps (x :: texts)

/-- What is justified stays so with more steps and more texts. -/
theorem Justified.mono {steps' : List Step} {texts texts' : List String} {x : String}
    (hsteps : steps ⊆ steps') (htexts : texts ⊆ texts') (h : Justified hypotheses steps texts x) :
    Justified hypotheses steps' texts' x := by
  rcases h with h | ⟨s, hs, hhyps, hx⟩
  · exact .inl h
  · exact .inr ⟨s, hsteps hs, fun h hh => htexts (hhyps h hh), hx⟩

namespace Derivation

variable {texts : List String}

/-- A derivation stays one with more steps. -/
theorem mono {steps' : List Step} (hsteps : steps ⊆ steps')
    (h : Derivation hypotheses steps texts) : Derivation hypotheses steps' texts := by
  induction h with
  | nil => exact .nil
  | cons hx hnew _ ih => exact .cons (hx.mono hsteps (List.Subset.refl _)) hnew ih

/-- Derivations only lead to consequences. -/
theorem mem_consequences (h : Derivation hypotheses steps texts) :
    ∀ x ∈ texts, x ∈ consequences hypotheses steps := by
  have hclosed : ClosedUnder hypotheses steps (consequences hypotheses steps) :=
    (isLeast_consequences hypotheses steps).1
  induction h with
  | nil => simp
  | cons hx _ _ ih =>
    refine List.forall_mem_cons.mpr ⟨?_, ih⟩
    rcases hx with ⟨h, hh, rfl⟩ | ⟨s, hs, hhyps, c, hc, rfl⟩
    · exact hclosed.assumed h hh
    · exact hclosed.step s hs (fun h hh => ih _ (hhyps h hh)) c hc

/-- Texts that a derivation justifies can be put behind it. -/
theorem exists_extension (h : Derivation hypotheses steps texts) {xs : List String}
    (hxs : ∀ x ∈ xs, Justified hypotheses steps texts x) :
    ∃ texts', Derivation hypotheses steps texts' ∧ texts ⊆ texts' ∧ xs ⊆ texts' := by
  induction xs with
  | nil => exact ⟨texts, h, List.Subset.refl _, List.nil_subset _⟩
  | cons x xs ih =>
    rw [List.forall_mem_cons] at hxs
    obtain ⟨texts', h', hle, hle'⟩ := ih hxs.2
    by_cases hmem : x ∈ texts'
    · exact ⟨texts', h', hle, List.cons_subset.mpr ⟨hmem, hle'⟩⟩
    · refine ⟨x :: texts', .cons (hxs.1.mono (List.Subset.refl _) hle) hmem h', ?_, ?_⟩
      · exact List.subset_cons_of_subset x hle
      · exact List.cons_subset_cons x hle'

/-- A step extends a derivation, unless one of its hypotheses is missing. -/
theorem exists_step (h : Derivation hypotheses steps texts) (s : Step) :
    ∃ texts', Derivation hypotheses (s :: steps) texts' ∧ texts ⊆ texts' ∧
      (∀ h ∈ hypotheses, h.canonical ∈ texts') ∧ s.Transmits (· ∈ texts') := by
  have hgiven : ∀ x ∈ hypotheses.map Term.canonical, Justified hypotheses (s :: steps) texts x :=
    List.forall_mem_map.mpr fun h hh => .inl ⟨h, hh, rfl⟩
  obtain ⟨texts₁, h₁, hle₁, hassumed⟩ :=
    (h.mono (List.subset_cons_self s steps)).exists_extension hgiven
  have hassumed₁ : ∀ h ∈ hypotheses, h.canonical ∈ texts₁ :=
    fun h hh => hassumed (List.mem_map_of_mem hh)
  by_cases hhyps : ∀ h ∈ s.hypotheses, h.canonical ∈ texts₁
  · have hconcluded : ∀ x ∈ s.conclusions.map Term.canonical,
        Justified hypotheses (s :: steps) texts₁ x :=
      List.forall_mem_map.mpr fun c hc => .inr ⟨s, List.mem_cons_self, hhyps, c, hc, rfl⟩
    obtain ⟨texts₂, h₂, hle₂, hproved⟩ := h₁.exists_extension hconcluded
    refine ⟨texts₂, h₂, fun x hx => hle₂ (hle₁ hx), fun h hh => hle₂ (hassumed₁ h hh), ?_⟩
    exact fun _ c hc => hproved (List.mem_map_of_mem hc)
  · exact ⟨texts₁, h₁, hle₁, hassumed₁, fun h => absurd h hhyps⟩

end Derivation

/-! ## From a replay to a derivation -/

/-- A derivation that leads to terms. -/
def Derives (hypotheses : List Term) (steps : List Step) (goals : List Term) : Prop :=
  ∃ texts, Derivation hypotheses steps texts ∧ ∀ g ∈ goals, g.canonical ∈ texts

/-- If what a step leaves to prove is derived by the steps behind it, then the goals are derived
with the step. -/
theorem Step.derives_of_run {s : Step}
    (h : Derives hypotheses steps (s.run hypotheses goals).goals) :
    Derives hypotheses (s :: steps) goals := by
  obtain ⟨texts, htexts, hmem⟩ := h
  obtain ⟨texts', htexts', hle, hassumed, hs⟩ := htexts.exists_step s
  exact ⟨texts', htexts', s.forall_goals_of_run hassumed hs fun g hg => hle (hmem g hg)⟩

/-- The goals in front of a step are derived by that step and those that follow. -/
theorem derives_of_replay (h : remaining goals (replay hypotheses goals steps) = []) :
    Derives hypotheses steps goals := by
  induction steps generalizing goals with
  | nil =>
    rw [replay, remaining_nil] at h
    exact ⟨[], .nil, by simp [h]⟩
  | cons s ss ih =>
    rw [replay, remaining_cons] at h
    exact s.derives_of_run (ih h)

end

/-- The conclusions of a valid theorem are consequences of its hypotheses under its steps, and have a
derivation in which no text is justified by itself. -/
theorem Theorem.conclusions_mem_consequences {t : Theorem} (h : t.valid) :
    IsLeast {S | ClosedUnder t.statement.hypotheses t.steps S}
        (consequences t.statement.hypotheses t.steps) ∧
      (∀ g ∈ t.statement.conclusions,
        g.canonical ∈ consequences t.statement.hypotheses t.steps) ∧
      ∃ texts, Derivation t.statement.hypotheses t.steps texts ∧
        ∀ g ∈ t.statement.conclusions, g.canonical ∈ texts := by
  rw [valid, List.isEmpty_iff] at h
  obtain ⟨texts, htexts, hmem⟩ := derives_of_replay h
  exact ⟨isLeast_consequences _ _, fun g hg => htexts.mem_consequences _ (hmem g hg),
    texts, htexts, hmem⟩

/-- The first step asks for what it concludes, the second one is useless and has a hole. -/
theorem Theorem.conclusions_mem_consequences_circular_step :
    let p := Term.var "p" "P"
    let loop : Rule := ⟨"loop", [⟨"P", "x"⟩], [.var "x" "P"], [.var "x" "P"], []⟩
    let intro : Rule := ⟨"intro", [⟨"P", "x"⟩], [.var "x" "P"], [.var "q" "P"], []⟩
    let t : Theorem := {
      statement := ⟨"t", [⟨"P", "p"⟩, ⟨"P", "q"⟩], [p], [.var "q" "P"], []⟩
      steps := [⟨loop, [p], []⟩, ⟨intro, [.hole "x" "P"], []⟩, ⟨intro, [p], []⟩] }
    t.valid ∧ "p" ∈ consequences t.statement.hypotheses t.steps := by
  intro p loop intro t
  have hvalid : t.valid := by decide +kernel
  exact ⟨hvalid, (Theorem.conclusions_mem_consequences hvalid).2.1 p (by simp [t])⟩

end Axiomata
