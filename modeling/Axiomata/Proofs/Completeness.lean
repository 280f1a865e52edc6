import Axiomata.Elaborate.Proof
import Axiomata.Proofs.Consequences

/-!
# What follows can be proved

The other way round than in a sound replay: whatever is a consequence of hypotheses under given steps
has a proof that is made of these steps and in which every step takes a goal off the list. Consequences
have derivations (`Derivation.exists_of_mem_consequences`), and a derivation gives the order of the
steps. It is gone through from its end, where the text that stands last is not needed for any other. If
that text is a goal, a step that concludes it only asks for texts in front of it, so that it never
comes back (`Derivation.exists_steps`).

Assumed goals go with the first step that takes off another goal. So there has to be such a goal, or
nothing to prove at all.
-/

namespace Axiomata

variable {hypotheses goals : List Term} {steps : List Step} {texts : List String}

/-! ## Derivations of all consequences -/

namespace Derivation

/-- A justified text can be added to a derivation, which stays as it is if it has the text. -/
theorem exists_insert (h : Derivation hypotheses steps texts) {x : String}
    (hx : Justified hypotheses steps texts x) :
    ∃ texts', Derivation hypotheses steps texts' ∧ texts ⊆ texts' ∧ x ∈ texts' := by
  obtain ⟨texts', h', hle, hnew⟩ := h.exists_extension (List.forall_mem_singleton.mpr hx)
  exact ⟨texts', h', hle, hnew List.mem_cons_self⟩

/-- Two derivations can be put together. -/
theorem exists_union {texts' : List String} (h : Derivation hypotheses steps texts)
    (h' : Derivation hypotheses steps texts') :
    ∃ union, Derivation hypotheses steps union ∧ texts ⊆ union ∧ texts' ⊆ union := by
  induction h' with
  | nil => exact ⟨texts, h, List.Subset.refl _, List.nil_subset _⟩
  | @cons texts' x hx _ _ ih =>
    obtain ⟨union, hunion, hle, hle'⟩ := ih
    obtain ⟨longer, hlonger, hunion', hnew⟩ :=
      hunion.exists_insert (hx.mono (List.Subset.refl _) hle')
    refine ⟨longer, hlonger, fun y hy => hunion' (hle hy), ?_⟩
    exact List.cons_subset.mpr ⟨hnew, fun y hy => hunion' (hle' hy)⟩

/-- Texts that have derivations have one in common. -/
theorem exists_of_forall {xs : List String}
    (h : ∀ x ∈ xs, ∃ texts, Derivation hypotheses steps texts ∧ x ∈ texts) :
    ∃ texts, Derivation hypotheses steps texts ∧ xs ⊆ texts := by
  induction xs with
  | nil => exact ⟨[], .nil, List.nil_subset _⟩
  | cons x xs ih =>
    rw [List.forall_mem_cons] at h
    obtain ⟨first, hfirst, hx⟩ := h.1
    obtain ⟨others, hothers, hxs⟩ := ih h.2
    obtain ⟨union, hunion, hle, hle'⟩ := hfirst.exists_union hothers
    exact ⟨union, hunion, List.cons_subset.mpr ⟨hle hx, fun y hy => hle' (hxs hy)⟩⟩

/-- What can be derived is closed under the steps, so that all consequences can. -/
theorem exists_of_mem_consequences {x : String} (h : x ∈ consequences hypotheses steps) :
    ∃ texts, Derivation hypotheses steps texts ∧ x ∈ texts := by
  refine h {x | ∃ texts, Derivation hypotheses steps texts ∧ x ∈ texts} ⟨?_, ?_⟩
  · intro u hu
    exact ⟨[u.canonical], .cons (.inl ⟨u, hu, rfl⟩) List.not_mem_nil .nil, List.mem_cons_self⟩
  · intro s hs hhyps c hc
    obtain ⟨texts, htexts, hsubset⟩ := exists_of_forall (List.forall_mem_map.mpr hhyps)
    obtain ⟨longer, hlonger, -, hnew⟩ := htexts.exists_insert <|
      .inr ⟨s, hs, fun u hu => hsubset (List.mem_map_of_mem hu), c, hc, rfl⟩
    exact ⟨longer, hlonger, hnew⟩

end Derivation

/-! ## From a derivation to a replay -/

/-- Steps that leave no goal, each of which takes one off the list. -/
structure Settles (hypotheses goals : List Term) (steps : List Step) : Prop where
  remaining : remaining goals (replay hypotheses goals steps) = []
  useful : ∀ snapshot ∈ replay hypotheses goals steps, snapshot.useless = false

theorem Settles.nil : Settles hypotheses [] [] := ⟨rfl, by simp [replay]⟩

/-- A useful step in front of steps that settle what it leaves. -/
theorem Settles.cons {s : Step} (hs : (s.run hypotheses goals).useless = false)
    (h : Settles hypotheses (s.run hypotheses goals).goals steps) :
    Settles hypotheses goals (s :: steps) := by
  refine ⟨?_, ?_⟩
  · rw [replay, remaining_cons]
    exact h.remaining
  · rw [replay, List.forall_mem_cons]
    exact ⟨hs, h.useful⟩

/-- Nothing is reported of steps that settle the goals. -/
theorem Settles.faults (h : Settles hypotheses goals steps) (callees : List Token) :
    Snapshot.faults callees (replay hypotheses goals steps) = [] := by
  rw [Snapshot.faults, List.filterMap_eq_nil_iff]
  rintro ⟨callee, snapshot⟩ hmem
  simp [h.useful snapshot (List.of_mem_zip hmem).2]

/-- Something is to be proved that is not assumed, unless nothing is. -/
def Open (hypotheses goals : List Term) : Prop :=
  goals = [] ∨ ∃ g ∈ goals, g.canonical ∉ hypotheses.map Term.canonical

/-- Goals none of which is assumed are open. -/
theorem open_of_forall (h : ∀ g ∈ goals, g.canonical ∉ hypotheses.map Term.canonical) :
    Open hypotheses goals := by
  cases goals with
  | nil => exact .inl rfl
  | cons g goals => exact .inr ⟨g, List.mem_cons_self, h g List.mem_cons_self⟩

/-- A step that concludes the last text of a derivation, where it is a goal, leaves goals that stand in
front of it and are not assumed. -/
theorem Step.run_of_justified {s : Step} {x : String}
    (hhyps : ∀ u ∈ s.hypotheses, u.canonical ∈ texts) (hx : x ∈ s.conclusions.map Term.canonical)
    (hgoals : ∀ g ∈ goals, g.canonical ∈ x :: texts ∨ g.canonical ∈ hypotheses.map Term.canonical)
    {g : Term} (hg : g ∈ goals) (heq : g.canonical = x) :
    (s.run hypotheses goals).useless = false ∧
      ∀ u ∈ (s.run hypotheses goals).goals,
        u.canonical ∈ texts ∧ u.canonical ∉ hypotheses.map Term.canonical := by
  rcases s.run_cases hypotheses goals with ⟨-, hnone⟩ | ⟨huseful, -, hmem⟩
  · exact absurd (heq ▸ hx) (hnone g hg)
  · refine ⟨huseful, fun u hu => ?_⟩
    obtain ⟨hnew, hasked | ⟨hold, hleft⟩⟩ := (hmem u).mp hu
    · exact ⟨hhyps u hasked, hnew⟩
    · have hne : u.canonical ≠ x := fun h => hleft (h ▸ hx)
      have htext := (hgoals u hold).resolve_right hnew
      exact ⟨(List.mem_cons.mp htext).resolve_left hne, hnew⟩

/-- Goals that a derivation leads to are settled by steps of the derivation. -/
theorem Derivation.exists_steps (h : Derivation hypotheses steps texts)
    (hgoals : ∀ g ∈ goals, g.canonical ∈ texts ∨ g.canonical ∈ hypotheses.map Term.canonical)
    (hopen : Open hypotheses goals) : ∃ ss ⊆ steps, Settles hypotheses goals ss := by
  -- The goals vary, the derivation gets shorter: its last text is taken care of first.
  induction h generalizing goals with
  | nil =>
    rcases hopen with rfl | ⟨g, hg, hnew⟩
    · exact ⟨[], List.nil_subset _, .nil⟩
    · exact absurd ((hgoals g hg).resolve_left List.not_mem_nil) hnew
  | @cons texts x hx _ _ ih =>
    by_cases hlast : ∃ g ∈ goals, g.canonical = x ∧ x ∉ hypotheses.map Term.canonical
    · obtain ⟨g, hg, heq, hnew⟩ := hlast
      rcases hx with ⟨u, hu, rfl⟩ | ⟨s, hs, hhyps, hconcluded⟩
      · exact absurd (List.mem_map_of_mem hu) hnew
      · obtain ⟨huseful, hrun⟩ :=
          s.run_of_justified hhyps (List.mem_map.mpr hconcluded) hgoals hg heq
        obtain ⟨ss, hss, hsettles⟩ :=
          ih (fun u hu => .inl (hrun u hu).1) (open_of_forall fun u hu => (hrun u hu).2)
        exact ⟨s :: ss, List.cons_subset.mpr ⟨hs, hss⟩, hsettles.cons huseful⟩
    · -- The text is no goal, or is assumed: nothing has to be done about it.
      refine ih (fun g hg => ?_) hopen
      rcases hgoals g hg with htext | hassumed
      · rcases List.mem_cons.mp htext with heq | htext
        · right
          by_contra hnew
          exact hlast ⟨g, hg, heq, heq ▸ hnew⟩
        · exact .inl htext
      · exact .inr hassumed

/-- A statement whose conclusions are consequences of its hypotheses under given steps has a valid
proof that consists of such steps and reports none as useless, if there is a conclusion that is not
assumed or none at all. -/
theorem Theorem.exists_valid_of_consequences {statement : Rule} {steps : List Step}
    (h : ∀ g ∈ statement.conclusions, g.canonical ∈ consequences statement.hypotheses steps)
    (hopen : statement.conclusions = [] ∨
      ∃ g ∈ statement.conclusions, ∀ u ∈ statement.hypotheses, u.canonical ≠ g.canonical) :
    ∃ ss ⊆ steps, (Theorem.mk statement ss).valid ∧
      ∀ callees, Snapshot.faults callees (Theorem.mk statement ss).snapshots = [] := by
  obtain ⟨texts, htexts, hsubset⟩ := Derivation.exists_of_forall <|
    List.forall_mem_map.mpr fun g hg => Derivation.exists_of_mem_consequences (h g hg)
  have hopen' : Open statement.hypotheses statement.conclusions := by
    refine hopen.imp_right ?_
    rintro ⟨g, hg, hnew⟩
    refine ⟨g, hg, fun hmem => ?_⟩
    obtain ⟨u, hu, heq⟩ := List.mem_map.mp hmem
    exact hnew u hu heq
  obtain ⟨ss, hss, hsettles⟩ :=
    htexts.exists_steps (fun g hg => .inl (hsubset (List.mem_map_of_mem hg))) hopen'
  exact ⟨ss, hss, List.isEmpty_iff.mpr hsettles.remaining, hsettles.faults⟩

/-- One of the steps leads back to where it came from, and a goal is assumed. -/
theorem Theorem.exists_valid_of_consequences_way_back :
    let p (name : String) : Term := .var name "P"
    let link : Rule := ⟨"link", [⟨"P", "x"⟩, ⟨"P", "y"⟩], [p "y"], [p "x"], []⟩
    let step (x y : String) : Step := ⟨link, [p x, p y], []⟩
    let steps := [step "b" "a", step "a" "b", step "c" "b"]
    let statement : Rule := ⟨"t", ["a", "b", "c"].map (⟨"P", ·⟩), [p "a", p "c"], [p "c"], []⟩
    "a" ∈ consequences statement.hypotheses steps ∧
      ∃ ss ⊆ steps, (Theorem.mk statement ss).valid ∧
        ∀ callees, Snapshot.faults callees (Theorem.mk statement ss).snapshots = [] := by
  intro p link step steps statement
  have hclosed : ClosedUnder statement.hypotheses steps (consequences statement.hypotheses steps) :=
    (isLeast_consequences _ _).1
  have hlink {x y : String} (hs : step x y ∈ steps)
      (hx : x ∈ consequences statement.hypotheses steps) :
      y ∈ consequences statement.hypotheses steps := by
    have hhyps : (step x y).hypotheses = [p x] := rfl
    have hconclusions : (step x y).conclusions = [p y] := rfl
    refine hclosed.step (step x y) hs ?_ (p y) ?_
    · rw [hhyps]
      exact List.forall_mem_singleton.mpr hx
    · rw [hconclusions]
      exact List.mem_singleton_self _
  have hc : "c" ∈ consequences statement.hypotheses steps :=
    hclosed.assumed (p "c") List.mem_cons_self
  have hb : "b" ∈ consequences statement.hypotheses steps := hlink (by simp [steps]) hc
  have ha : "a" ∈ consequences statement.hypotheses steps := hlink (by simp [steps]) hb
  refine ⟨ha, Theorem.exists_valid_of_consequences ?_ (.inr ⟨p "a", ?_, ?_⟩)⟩
  · exact List.forall_mem_cons.mpr ⟨ha, List.forall_mem_singleton.mpr hc⟩
  · exact List.mem_cons_self
  · decide +kernel

end Axiomata
