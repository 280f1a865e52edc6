import Axiomata.Proofs.Replay

/-!
# More hypotheses, more steps

A valid proof stays valid when more is assumed or when steps are added at its end. Steps that were
useful may become useless on the way.

With more hypotheses goals go away earlier, but an assumed goal only goes with a step that concludes
another one. So two replays of the same steps, one of them with more hypotheses, are compared by a
relation on their goals (`Behind`). The first step that is useful at all is so in both of them, since
they start with the same goals. From then on the one with more hypotheses has no assumed goals, and
only goals that the other one has too. A step that it can use is then of use to the other one as well.
-/

namespace Axiomata

variable {hypotheses hypotheses' goals goals' : List Term}

/-! ## Two replays side by side -/

/-- Of the goals of two replays, where the given hypotheses are assumed in the second one: it has no
goal of its own, and no goal that is assumed unless both still have the same goals. -/
structure Behind (hypotheses goals goals' : List Term) : Prop where
  subset : goals'.map Term.canonical ⊆ goals.map Term.canonical
  settled : goals' = goals ∨ ∀ g ∈ goals', g.canonical ∉ hypotheses.map Term.canonical

theorem Behind.refl (hypotheses goals : List Term) : Behind hypotheses goals goals :=
  ⟨List.Subset.refl _, .inl rfl⟩

/-- A goal that neither is concluded nor assumed is found behind the step, under the same text. -/
theorem Step.exists_goal_run {s : Step} {g g' : Term} (hg : g ∈ goals)
    (heq : g.canonical = g'.canonical) (hleft : g'.canonical ∉ s.conclusions.map Term.canonical)
    (hnew : g'.canonical ∉ hypotheses.map Term.canonical) :
    g'.canonical ∈ (s.run hypotheses goals).goals.map Term.canonical := by
  refine List.mem_map.mpr ⟨g, ?_, heq⟩
  rcases s.run_cases hypotheses goals with ⟨hrun, -⟩ | ⟨-, -, hmem⟩
  · rwa [hrun]
  · exact (hmem g).mpr ⟨heq ▸ hnew, .inr ⟨hg, heq ▸ hleft⟩⟩

/-- A step keeps the goals of the two replays in this relation. -/
theorem Behind.run (h : Behind hypotheses' goals goals')
    (hmore : hypotheses.map Term.canonical ⊆ hypotheses'.map Term.canonical) (s : Step) :
    Behind hypotheses' (s.run hypotheses goals).goals (s.run hypotheses' goals').goals := by
  have hgoal {g' : Term} (hg' : g' ∈ goals') : ∃ g ∈ goals, g.canonical = g'.canonical :=
    List.mem_map.mp (h.subset (List.mem_map_of_mem hg'))
  have hstay {g' : Term} (hg' : g' ∈ goals') (hleft : g'.canonical ∉ s.conclusions.map Term.canonical)
      (hnew : g'.canonical ∉ hypotheses'.map Term.canonical) :
      g'.canonical ∈ (s.run hypotheses goals).goals.map Term.canonical := by
    obtain ⟨g, hg, heq⟩ := hgoal hg'
    exact s.exists_goal_run hg heq hleft fun hassumed => hnew (hmore hassumed)
  rcases s.run_cases hypotheses' goals' with ⟨hrun', hnone'⟩ | ⟨-, ⟨g', hg', hproved⟩, hmem'⟩
  · rw [hrun']
    rcases s.run_cases hypotheses goals with ⟨hrun, -⟩ | ⟨-, ⟨g, hg, hproved⟩, -⟩
    · rwa [hrun]
    · -- Only the first replay goes on, so that the goals differ already.
      have hnew : ∀ g' ∈ goals', g'.canonical ∉ hypotheses'.map Term.canonical := by
        refine h.settled.resolve_left fun heq => ?_
        exact hnone' g (heq ▸ hg) hproved
      refine ⟨?_, .inr hnew⟩
      intro x hx
      obtain ⟨g', hg', rfl⟩ := List.mem_map.mp hx
      exact hstay hg' (hnone' g' hg') (hnew g' hg')
  · have huseful : ∃ g ∈ goals, g.canonical ∈ s.conclusions.map Term.canonical := by
      obtain ⟨g, hg, heq⟩ := hgoal hg'
      exact ⟨g, hg, heq ▸ hproved⟩
    refine ⟨?_, .inr fun u hu => ((hmem' u).mp hu).1⟩
    intro x hx
    obtain ⟨u, hu, rfl⟩ := List.mem_map.mp hx
    obtain ⟨hnew, hasked | ⟨hold, hleft⟩⟩ := (hmem' u).mp hu
    · refine List.mem_map_of_mem ((Step.mem_goals_run_iff huseful).mpr ⟨?_, .inl hasked⟩)
      exact fun hassumed => hnew (hmore hassumed)
    · exact hstay hold hleft hnew

/-- By induction on the steps. With more hypotheses, a replay has no more left to prove. -/
theorem behind_replay (hmore : hypotheses.map Term.canonical ⊆ hypotheses'.map Term.canonical)
    (h : Behind hypotheses' goals goals') (steps : List Step) :
    Behind hypotheses' (remaining goals (replay hypotheses goals steps))
      (remaining goals' (replay hypotheses' goals' steps)) := by
  induction steps generalizing goals goals' with
  | nil => exact h
  | cons s ss ih =>
    rw [replay, replay, remaining_cons, remaining_cons]
    exact ih (h.run hmore s)

/-! ## Steps behind a proof -/

/-- The second part of a proof starts with what the first part leaves. -/
theorem remaining_replay_append (hypotheses goals : List Term) (ss ts : List Step) :
    remaining goals (replay hypotheses goals (ss ++ ts)) =
      let between := remaining goals (replay hypotheses goals ss)
      remaining between (replay hypotheses between ts) := by
  induction ss generalizing goals with
  | nil => rfl
  | cons s ss ih =>
    rw [List.cons_append, replay, replay, remaining_cons, remaining_cons]
    exact ih _

/-- Where nothing is to be proved, no step puts a goal on the list. -/
theorem remaining_replay_nil (hypotheses : List Term) (ss : List Step) :
    remaining [] (replay hypotheses [] ss) = [] := by
  induction ss with
  | nil => rfl
  | cons s ss ih =>
    have hnone : (s.run hypotheses []).goals = [] := by
      rcases s.run_cases hypotheses [] with ⟨hrun, -⟩ | ⟨-, ⟨g, hg, -⟩, -⟩
      · rw [hrun]
      · exact absurd hg List.not_mem_nil
    rw [replay, remaining_cons, hnone]
    exact ih

/-- A valid proof stays valid with hypotheses among which all of its own are, and with more steps. -/
theorem Theorem.valid_weakened {t : Theorem} (h : t.valid) :
    (∀ hypotheses', (∀ u ∈ t.statement.hypotheses, ∃ v ∈ hypotheses', u.canonical = v.canonical) →
      (Theorem.mk { t.statement with hypotheses := hypotheses' } t.steps).valid) ∧
    ∀ more, (Theorem.mk t.statement (t.steps ++ more)).valid := by
  rw [valid, List.isEmpty_iff, snapshots] at h
  constructor
  · intro hypotheses' hmore
    have hsubset : t.statement.hypotheses.map Term.canonical ⊆ hypotheses'.map Term.canonical := by
      intro x hx
      obtain ⟨u, hu, rfl⟩ := List.mem_map.mp hx
      obtain ⟨v, hv, heq⟩ := hmore u hu
      exact List.mem_map.mpr ⟨v, hv, heq.symm⟩
    have hleft := (behind_replay hsubset (.refl hypotheses' t.statement.conclusions) t.steps).subset
    rw [h, List.map_nil, List.subset_nil, List.map_eq_nil_iff] at hleft
    exact List.isEmpty_iff.mpr hleft
  · intro more
    have hleft := remaining_replay_append t.statement.hypotheses t.statement.conclusions t.steps more
    rw [h, remaining_replay_nil] at hleft
    exact List.isEmpty_iff.mpr hleft

/-- With `b` assumed as well the second step becomes useless, and so is the step that is added. -/
theorem Theorem.valid_weakened_useless_steps :
    let p (name : String) : Term := .var name "P"
    let link : Rule := ⟨"link", [⟨"P", "x"⟩, ⟨"P", "y"⟩], [p "y"], [p "x"], []⟩
    let step (x y : String) : Step := ⟨link, [p x, p y], []⟩
    let statement : Rule := ⟨"t", ["a", "b", "c"].map (⟨"P", ·⟩), [p "a", p "c"], [p "c"], []⟩
    let t : Theorem := ⟨statement, [step "b" "a", step "c" "b"]⟩
    let more : Theorem := ⟨{ statement with hypotheses := [p "b", p "c"] }, t.steps⟩
    let longer : Theorem := ⟨statement, t.steps ++ [step "a" "c"]⟩
    t.valid ∧ more.valid ∧ longer.valid ∧
      [t, more, longer].map (·.snapshots.map Snapshot.useless) =
        [[false, false], [false, true], [false, false, true]] := by
  intro p link step statement t more longer
  have hvalid : t.valid := by decide +kernel
  obtain ⟨hmore, hlonger⟩ := Theorem.valid_weakened hvalid
  refine ⟨hvalid, hmore _ ?_, hlonger _, by decide +kernel⟩
  exact List.forall_mem_singleton.mpr ⟨p "c", by simp, rfl⟩

/-- Fewer goals are not always proved: one that is assumed is left if no other goal goes with it. -/
example :
    let p (name : String) : Term := .var name "P"
    let s : Step := ⟨⟨"ax", [], [p "a"], [], []⟩, [], []⟩
    remaining [p "a", p "c"] (replay [p "c"] [p "a", p "c"] [s]) = [] ∧
      (remaining [p "c"] (replay [p "c"] [p "c"] [s])).map Term.canonical = ["c"] :=
  ⟨rfl, rfl⟩

end Axiomata
