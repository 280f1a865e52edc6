import Axiomata.Proof.Replay

/-!
# What a replay shows

A replay only looks at the canonical texts of terms, and what one step does to the goals is said once
(`Step.run_cases`). So take any property of texts that the hypotheses have and that every step passes
on from its hypotheses to its conclusions: if the goals that are left have it, then so do those in
front of a step (`Step.forall_goals_of_run`) and of a whole list of steps (`forall_goals_of_replay`).
In a valid proof no goal is left.
-/

namespace Axiomata

/-- The hypotheses of a step pass a property of texts on to its conclusions. -/
def Step.Transmits (P : String → Prop) (s : Step) : Prop :=
  (∀ h ∈ s.hypotheses, P h.canonical) → ∀ c ∈ s.conclusions, P c.canonical

variable {P : String → Prop} {hypotheses goals : List Term}

/-- What a step does. It leaves the goals if it concludes none of them. Otherwise it takes off those
that it concludes and those that are assumed, and asks for its hypotheses unless they are assumed. -/
theorem Step.run_cases (s : Step) (hypotheses goals : List Term) :
    s.run hypotheses goals = ⟨goals, true, s.suggestions goals⟩ ∧
        (∀ g ∈ goals, g.canonical ∉ s.conclusions.map Term.canonical) ∨
      (s.run hypotheses goals).useless = false ∧
        (∃ g ∈ goals, g.canonical ∈ s.conclusions.map Term.canonical) ∧
        ∀ g, g ∈ (s.run hypotheses goals).goals ↔
          g.canonical ∉ hypotheses.map Term.canonical ∧
            (g ∈ s.hypotheses ∨ g ∈ goals ∧ g.canonical ∉ s.conclusions.map Term.canonical) := by
  have hany : (goals.any fun g => (s.conclusions.map Term.canonical).contains g.canonical) ↔
      ∃ g ∈ goals, g.canonical ∈ s.conclusions.map Term.canonical := by
    simp only [List.any_eq_true, List.contains_iff_mem]
  by_cases h : ∃ g ∈ goals, g.canonical ∈ s.conclusions.map Term.canonical
  · right
    rw [run, advance?, if_pos (hany.mpr h)]
    refine ⟨rfl, h, fun g => ?_⟩
    simp only [List.mem_append, List.mem_filter, Bool.and_eq_true, Bool.not_eq_true',
      List.contains_eq_mem, decide_eq_false_iff_not]
    constructor
    · rintro (⟨hg, hassumed⟩ | ⟨hg, hproved, hassumed⟩)
      · exact ⟨hassumed, .inl hg⟩
      · exact ⟨hassumed, .inr ⟨hg, hproved⟩⟩
    · rintro ⟨hassumed, hg | ⟨hg, hproved⟩⟩
      · exact .inl ⟨hg, hassumed⟩
      · exact .inr ⟨hg, hproved, hassumed⟩
  · left
    rw [run, advance?, if_neg (mt hany.mp h)]
    exact ⟨rfl, fun g hg hproved => h ⟨g, hg, hproved⟩⟩

/-- A step is of use if it concludes one of the goals. -/
theorem Step.useless_run_eq_false_iff {s : Step} :
    (s.run hypotheses goals).useless = false ↔
      ∃ g ∈ goals, g.canonical ∈ s.conclusions.map Term.canonical := by
  rcases s.run_cases hypotheses goals with ⟨hrun, hnone⟩ | ⟨huseful, hexists, -⟩
  · rw [hrun]
    simpa using hnone
  · exact iff_of_true huseful hexists

/-- A useless step leaves the goals. -/
theorem Step.run_of_useless {s : Step} (h : (s.run hypotheses goals).useless) :
    s.run hypotheses goals = ⟨goals, true, s.suggestions goals⟩ := by
  rcases s.run_cases hypotheses goals with ⟨hrun, -⟩ | ⟨huseful, -⟩
  · exact hrun
  · rw [huseful] at h
    cases h

/-- A useful step takes its conclusions off the goals and adds its hypotheses, apart from what is
assumed. -/
theorem Step.mem_goals_run_iff {s : Step}
    (h : ∃ g ∈ goals, g.canonical ∈ s.conclusions.map Term.canonical) {u : Term} :
    u ∈ (s.run hypotheses goals).goals ↔
      u.canonical ∉ hypotheses.map Term.canonical ∧
        (u ∈ s.hypotheses ∨ u ∈ goals ∧ u.canonical ∉ s.conclusions.map Term.canonical) := by
  rcases s.run_cases hypotheses goals with ⟨-, hnone⟩ | ⟨-, -, hmem⟩
  · obtain ⟨g, hg, hproved⟩ := h
    exact absurd hproved (hnone g hg)
  · exact hmem u

/-- A step puts nothing on the list of goals but its hypotheses. -/
theorem Step.mem_goals_run {s : Step} {g : Term} (h : g ∈ (s.run hypotheses goals).goals) :
    g ∈ s.hypotheses ∨ g ∈ goals := by
  rcases s.run_cases hypotheses goals with ⟨hrun, -⟩ | ⟨-, -, hmem⟩
  · rw [hrun] at h
    exact .inr h
  · exact ((hmem g).mp h).2.imp_right And.left

/-- If all that a step leaves to prove has a property that the step hands on, then the goals have
it. A useless step leaves the goals as they are. -/
theorem Step.forall_goals_of_run {s : Step} (hassumed : ∀ h ∈ hypotheses, P h.canonical)
    (hs : s.Transmits P) (h : ∀ g ∈ (s.run hypotheses goals).goals, P g.canonical) :
    ∀ g ∈ goals, P g.canonical := by
  rcases s.run_cases hypotheses goals with ⟨hrun, -⟩ | ⟨-, -, hmem⟩
  · rwa [hrun] at h
  · have hknown {t : Term} (ht : t.canonical ∈ hypotheses.map Term.canonical) : P t.canonical := by
      obtain ⟨u, hu, heq⟩ := List.mem_map.mp ht
      exact heq ▸ hassumed u hu
    have hhyps : ∀ u ∈ s.hypotheses, P u.canonical := by
      intro u hu
      by_cases hold : u.canonical ∈ hypotheses.map Term.canonical
      · exact hknown hold
      · exact h u ((hmem u).mpr ⟨hold, .inl hu⟩)
    intro g hg
    by_cases hproved : g.canonical ∈ s.conclusions.map Term.canonical
    · obtain ⟨c, hc, heq⟩ := List.mem_map.mp hproved
      exact heq ▸ hs hhyps c hc
    by_cases hold : g.canonical ∈ hypotheses.map Term.canonical
    · exact hknown hold
    · exact h g ((hmem g).mpr ⟨hold, .inr ⟨hg, hproved⟩⟩)

@[simp] theorem remaining_nil : remaining goals [] = goals := rfl

@[simp] theorem remaining_cons (s : Snapshot) (ss : List Snapshot) :
    remaining goals (s :: ss) = remaining s.goals ss := by
  rw [remaining, remaining, List.getLast?_cons, Option.map_some, Option.getD_some]
  cases ss.getLast? with
  | none => rfl
  | some last => rfl

/-- Each step runs on the goals that the steps in front of it have left. -/
theorem getElem?_replay (hypotheses goals : List Term) (ss : List Step) (k : Nat) :
    (replay hypotheses goals ss)[k]? =
      ss[k]?.map (Step.run hypotheses (remaining goals ((replay hypotheses goals ss).take k))) := by
  induction ss generalizing goals k with
  | nil => simp [replay]
  | cons s ss ih =>
    cases k with
    | zero => simp [replay]
    | succ k => simpa [replay] using ih (s.run hypotheses goals).goals k

/-- By induction on the steps, from the last one to the first. -/
theorem forall_goals_of_replay {ss : List Step} (hassumed : ∀ h ∈ hypotheses, P h.canonical)
    (hss : ∀ s ∈ ss, s.Transmits P)
    (h : ∀ g ∈ remaining goals (replay hypotheses goals ss), P g.canonical) :
    ∀ g ∈ goals, P g.canonical := by
  induction ss generalizing goals with
  | nil => exact h
  | cons s ss ih =>
    rw [List.forall_mem_cons] at hss
    rw [replay, remaining_cons] at h
    exact s.forall_goals_of_run hassumed hss.1 (ih hss.2 h)

/-- What is true of the hypotheses of a valid theorem and is handed on by its steps is true of its
conclusions. -/
theorem Theorem.forall_conclusions_of_valid {t : Theorem} (h : t.valid)
    (hassumed : ∀ u ∈ t.statement.hypotheses, P u.canonical) (hsteps : ∀ s ∈ t.steps, s.Transmits P) :
    ∀ c ∈ t.statement.conclusions, P c.canonical := by
  refine forall_goals_of_replay hassumed hsteps fun g hg => ?_
  rw [valid, List.isEmpty_iff, snapshots] at h
  simp [h] at hg

end Axiomata
