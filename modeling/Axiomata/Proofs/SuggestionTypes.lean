import Axiomata.Proofs.Atomicity
import Axiomata.Proofs.Soundness
import Axiomata.Proofs.Suggestions

/-!
# Types of suggestions

The matcher looks at names and numbers of arguments, not at types. Below a constructor types agree all
the same: the arguments of the pattern and of the term both have the types that the constructor asks
for, so that a hole takes a term of its own type (`Term.suits_of_matchAll`). Only a conclusion that is
nothing but a hole takes a goal of whatever type. A suggestion of the right types can be written down:
the step that is read has the arguments that were suggested, and no argument of a wrong type
(`Step.Typed.toStep_filled`).
-/

namespace Axiomata

/-! ## Matching -/

/-- Constructors of one name ask for arguments of the same types. -/
def Term.Agrees (s t : Term) : Prop :=
  ∀ c ∈ s.ctors, ∀ d ∈ t.ctors, c.name = d.name → c.params.map Param.type = d.params.map Param.type

/-- Terms for holes that have the types of parameters with the names of the holes. -/
def Suggestion.Suits (σ : Suggestion) (params : List Param) : Prop :=
  ∀ n t, σ.get? n = some t → ⟨t.type, n⟩ ∈ params

namespace Term

variable {symbols : List Symbol} {vars params holes : List Param} {p t : Term}

theorem ctors_subset_of_mem_args {a : Term} (ha : a ∈ t.args) : a.ctors ⊆ t.ctors := by
  cases t with
  | var n y | hole n y => simp [args] at ha
  | app c ts =>
    rw [ctors_app]
    exact fun d hd => List.mem_cons_of_mem c (List.mem_flatMap.mpr ⟨a, ha, hd⟩)

theorem Agrees.of_mem_args (h : p.Agrees t) {a b : Term} (ha : a ∈ p.args) (hb : b ∈ t.args) :
    a.Agrees b :=
  fun c hc d hd => h c (ctors_subset_of_mem_args ha hc) d (ctors_subset_of_mem_args hb hd)

/-- Arguments of terms with the same root have the same types. -/
theorem types_args (hp : p.Typed symbols vars params) (ht : t.Typed symbols vars holes)
    (hagrees : p.Agrees t) (hhead : p.head = t.head) (hlen : p.args.length = t.args.length) :
    p.args.map type = t.args.map type := by
  cases hp with
  | var _ | hole _ =>
    rw [List.eq_nil_of_length_eq_zero hlen.symm]
    rfl
  | @app c ps _ types _ =>
    cases ht with
    | var _ | hole _ =>
      rw [List.eq_nil_of_length_eq_zero hlen]
      rfl
    | @app d ts _ types' _ =>
      rw [args_app, args_app, types, types']
      exact hagrees c (by simp) d (by simp) hhead

/-- By induction on the queue. A hole in it stands beside a term of its type, and below a constructor
any pattern does. -/
theorem suits_of_matchAll {σ τ : Suggestion} {queue : List (Term × Term)}
    (h : matchAll σ queue = some τ) (hσ : σ.Suits params)
    (hqueue : ∀ x ∈ queue, (x.1.isHole → x.1.type = x.2.type) ∧ x.1.Typed symbols vars params ∧
      x.2.Typed symbols vars holes ∧ x.1.Agrees x.2) : τ.Suits params := by
  induction σ, queue using queue_induction with
  | nil σ =>
    rw [matchAll_nil] at h
    cases h
    exact hσ
  | hole σ n y t queue ih =>
    rw [matchAll_hole, Option.ite_none_right_eq_some] at h
    obtain ⟨⟨htype, hhole, -, -⟩, hrest⟩ := List.forall_mem_cons.mp hqueue
    refine ih h.2 (fun m u hu => ?_) hrest
    rw [Suggestion.get?_put] at hu
    split at hu
    · rename_i hm
      cases hu
      have htype : y = t.type := htype rfl
      cases hhole with
      | hole hmem => exact hm ▸ htype ▸ hmem
    · exact hσ m u hu
  | root σ p t queue hp ih =>
    rw [matchAll_root σ hp, Option.ite_none_right_eq_some] at h
    obtain ⟨⟨hhead, hlen⟩, h⟩ := h
    obtain ⟨⟨-, hpattern, hterm, hagrees⟩, hrest⟩ := List.forall_mem_cons.mp hqueue
    refine ih h hσ (List.forall_mem_append.mpr ⟨hrest, fun x hx => ?_⟩)
    obtain ⟨-, htypes⟩ := map_eq_map_iff_zip.mp (types_args hpattern hterm hagrees hhead hlen)
    obtain ⟨ha, hb⟩ := List.of_mem_zip hx
    exact ⟨fun _ => htypes x hx, hpattern.of_mem_args ha, hterm.of_mem_args hb,
      hagrees.of_mem_args ha hb⟩

/-- What a pattern takes from a term has the right types, unless it is a hole of another type than the
term. -/
theorem suits_of_match?_iff (hnodup : (params.map Param.name).Nodup)
    (hp : p.Typed symbols vars params) (ht : t.Typed symbols vars holes) (hagrees : p.Agrees t)
    {σ : Suggestion} (h : p.match? t = some σ) :
    σ.Suits params ↔ (p.isHole → p.type = t.type) := by
  constructor
  · intro hσ hhole
    cases hp with
    | var _ | app _ _ _ => cases hhole
    | @hole n y hmem =>
      rw [match?, matchAll_hole, Option.ite_none_right_eq_some, matchAll_nil] at h
      cases h.2
      have hget : Suggestion.get? (Suggestion.put [] n t) n = some t := by
        rw [Suggestion.get?_put, if_pos rfl]
      have hsame := List.inj_on_of_nodup_map hnodup hmem (hσ n t hget) rfl
      exact congrArg Param.type hsame
  · intro hroot
    have hempty : Suggestion.Suits [] params := fun n u hu => by cases hu
    exact suits_of_matchAll h hempty (List.forall_mem_singleton.mpr ⟨hroot, hp, ht, hagrees⟩)

end Term

/-! ## Steps -/

/-- What is bound at the end was bound at the start or is on the list. -/
theorem Suggestion.get?_foldl_put {bs : List (String × Term)} {σ : Suggestion} {n : String} {t : Term}
    (h : (bs.foldl (fun σ b => put σ b.1 b.2) σ).get? n = some t) :
    (n, t) ∈ bs ∨ σ.get? n = some t := by
  induction bs generalizing σ with
  | nil => exact .inr h
  | cons b bs ih =>
    rcases ih h with hmem | hput
    · exact .inl (List.mem_cons_of_mem b hmem)
    · rw [get?_put] at hput
      split at hput
      · rename_i heq
        cases hput
        exact .inl (heq ▸ List.mem_cons_self)
      · exact .inr hput

/-- A step that took a goal off the list suggests its own holes. -/
theorem Step.eq_ownHoles {s : Step} {hypotheses goals : List Term} {σ : Suggestion}
    (h : (s.run hypotheses goals).useless = false) (hσ : σ ∈ (s.run hypotheses goals).suggestions) :
    σ = s.ownHoles := by
  rw [run] at h hσ
  split at hσ
  · simp only [List.mem_ite_nil_right, List.mem_singleton] at hσ
    exact hσ.2
  · rename_i hnone
    rw [hnone] at h
    cases h

namespace Step.Typed

variable {symbols : List Symbol} {vars : List Param} {step : Step}

/-- Holes that stand for themselves have their own types. -/
theorem suits_ownHoles (h : step.Typed symbols vars) : step.ownHoles.Suits step.rule.params := by
  intro n t ht
  rcases Suggestion.get?_foldl_put ht with hmem | hnone
  · obtain ⟨a, ha, heq⟩ := List.mem_map.mp hmem
    obtain ⟨ha, hhole⟩ := List.mem_filter.mp ha
    rw [Prod.mk.injEq] at heq
    obtain ⟨rfl, rfl⟩ := heq
    cases h.args.typed a ha with
    | var _ | app _ _ _ => cases hhole
    | hole hp => exact hp
  · cases hnone

/-- A step that is filled by terms of the right types has arguments of the right types. -/
theorem types_filled (h : step.Typed symbols vars) (hnodup : step.rule.paramNames.Nodup)
    {σ : Suggestion} (hσ : σ.Suits step.rule.params) :
    (step.filled σ).args.map Term.type = step.rule.params.map Param.type := by
  rw [← h.args.types, filled, List.map_map]
  refine List.map_congr_left fun a ha => ?_
  have htyped := h.args.typed a ha
  cases htyped with
  | var _ => rfl
  | app _ _ _ => rw [Function.comp_apply, h.fill_arg ha rfl]
  | @hole n y hmem =>
    rw [Function.comp_apply, Term.fill]
    cases hget : σ.get? n with
    | none => rfl
    | some u =>
      exact congrArg Param.type (List.inj_on_of_nodup_map hnodup (hσ n u hget) hmem rfl)

/-- Written down, terms of the right types for the holes are read as the filled step. -/
theorem toStep_filled {s : Scope} {r : Rule} (h : step.Typed symbols vars)
    (hnodup : step.rule.paramNames.Nodup) {σ : Suggestion} (hσ : σ.Suits step.rule.params)
    {root : Token} {es : List Expr} (hrule : s.rule? root.text = some step.rule)
    (hes : es.map (fun e => (e.instantiate s r.params).1) = (step.filled σ).args.map some) :
    ((Expr.node root es).toStep s r).1 = some (.within r step.rule (step.filled σ).args) ∧
      ∀ d ∈ ((Expr.node root es).toStep s r).2, d.fault = .notDistinct := by
  rw [Expr.toStep_of_types hrule hes (h.types_filled hnodup hσ)]
  refine ⟨rfl, fun d hd => ?_⟩
  obtain ⟨_, -, rfl⟩ := List.mem_map.mp hd
  rfl

end Step.Typed

/-! ## Compiled theorems -/

/-- In a scope that was compiled in order, a name is that of one constructor. -/
theorem Scope.Reachable.agrees {admitted : Decl → Prop} {s : Scope} (hs : s.Reachable admitted)
    {vars params holes : List Param} {p t : Term} (hp : p.Typed s.symbols vars params)
    (ht : t.Typed s.symbols vars holes) : p.Agrees t := by
  intro c hc d hd hname
  have hsame := hs.eq_of_name_eq (hp.mem_symbols hc) (ht.mem_symbols hd) hname
  rw [Symbol.ctor.inj hsame]

/-- A useless step suggests how to make its conclusions into the goals in front of it. These are typed,
with holes for parameters of rules that were used so far. -/
theorem Theorem.Typed.of_useless {symbols : List Symbol} {t : Theorem} (h : t.Typed symbols) {k : Nat}
    {step : Step} (hstep : t.steps[k]? = some step) {snapshot : Snapshot}
    (hsnapshot : t.snapshots[k]? = some snapshot) (huseless : snapshot.useless) :
    snapshot.suggestions = step.suggestions (t.goalsAt k) ∧
      ∀ g ∈ t.goalsAt k, g.Typed symbols t.statement.params
        ((t.steps.take (k + 1)).flatMap (·.rule.params)) := by
  have hrun : snapshot = ⟨t.goalsAt k, true, step.suggestions (t.goalsAt k)⟩ := by
    rw [t.snapshot_eq_run hstep hsnapshot] at huseless ⊢
    exact Step.run_of_useless huseless
  have hgoals := h.goals k snapshot hsnapshot
  rw [hrun] at hgoals ⊢
  exact ⟨rfl, hgoals⟩

/-- Of a step in the proof of a compiled theorem, with faults or without: what a step that took a goal
off the list suggests has the types of the parameters that the holes stand for. Any other suggestion
is found where a conclusion matches a goal, and has these types if and only if the conclusion is not a
hole of another type than the goal; in a scope that was not compiled in order, if their constructors
agree. A suggestion of these types can be written down, and is then read without a fault other than
that of names that are not kept apart. -/
theorem suggestion_types {deps : List Table} (hdeps : ∀ table ∈ deps, table.Compiled fun _ => True)
    (ds : List Decl) (st : Statement) (proof : List Expr) {t : Theorem}
    (ht : .thm t ∈ (((Elaboration.start deps).run ds).scope.elaborate (.thm st proof)).symbols)
    {k : Nat} {step : Step} (hstep : t.steps[k]? = some step) {snapshot : Snapshot}
    (hsnapshot : t.snapshots[k]? = some snapshot) {σ : Suggestion} (hσ : σ ∈ snapshot.suggestions) :
    let s := ((Elaboration.start deps).run ds).scope
    (snapshot.useless = false → σ.Suits step.rule.params) ∧
    (snapshot.useless → (∃ g ∈ t.goalsAt k, ∃ c ∈ step.conclusions, c.match? g = some σ) ∧
      ∀ g ∈ t.goalsAt k, ∀ c ∈ step.conclusions, c.match? g = some σ →
        s.Reachable (fun _ => True) ∨ c.Agrees g →
        (σ.Suits step.rule.params ↔ (c.isHole → c.type = g.type))) ∧
    (σ.Suits step.rule.params → ∀ (root : Token) (es : List Expr),
      s.rule? root.text = some step.rule →
      es.map (fun e => (e.instantiate s t.statement.params).1) = (step.filled σ).args.map some →
      ((Expr.node root es).toStep s t.statement).1 =
          some (.within t.statement step.rule (step.filled σ).args) ∧
        ∀ d ∈ ((Expr.node root es).toStep s t.statement).2, d.fault = .notDistinct) := by
  intro s
  obtain ⟨symbols, hsubset, hclosed⟩ :=
    (hereditary_typed fun _ => True).exists_closed_run hdeps (fun d (_ : d ∈ ds) => trivial)
  obtain ⟨r, hr, rfl⟩ : ∃ r, (st.elaborate s).1 = some r ∧
      t = ⟨r, (r.citedSteps s proof).map Prod.snd⟩ := by
    cases Scope.adds_of_mem_elaborate ht with
    | thm hr => exact ⟨_, hr, rfl⟩
  have hrules : ∀ x ∈ s.symbols, ∀ r, x.rule? = some r → r.WellFormed symbols :=
    fun x hx r hr => (hclosed x (hsubset hx)).wellFormed hr
  have htyped := Theorem.Typed.of_elaborate hsubset hrules hr proof
  have hmem := List.mem_of_getElem? hstep
  have hstep' := htyped.steps step hmem
  have hnodup : step.rule.paramNames.Nodup := by
    obtain ⟨x, hx, hrule⟩ := hstep'.rule
    exact ((hclosed x hx).wellFormed hrule).nodup
  refine ⟨fun huseful => ?_, fun huseless => ⟨?_, ?_⟩, fun hsuits root es hrule hes => ?_⟩
  · rw [Theorem.snapshot_eq_run hstep hsnapshot] at huseful hσ
    rw [Step.eq_ownHoles huseful hσ]
    exact hstep'.suits_ownHoles
  · rw [(htyped.of_useless hstep hsnapshot huseless).1] at hσ
    exact Step.mem_suggestions_iff.mp hσ
  · intro g hg c hc hmatch hor
    have hagrees : c.Agrees g := by
      rcases hor with hs | hagrees
      · have htyped' := Theorem.Typed.of_elaborate (List.Subset.refl s.symbols)
          (fun x hx r hr => hs.wellFormed hx hr) hr proof
        exact hs.agrees ((htyped'.steps step hmem).conclusions c hc)
          ((htyped'.of_useless hstep hsnapshot huseless).2 g hg)
      · exact hagrees
    exact Term.suits_of_match?_iff hnodup (hstep'.conclusions c hc)
      ((htyped.of_useless hstep hsnapshot huseless).2 g hg) hagrees hmatch
  · exact hstep'.toStep_filled hnodup hsuits hrule hes

/-- Two holes of different types, one of them filled by an application. -/
theorem suggestion_types_quantified :
    let logic := Source.ofText "logic" ("type P S term P all(S x, P p) \x7b all x p \x7d " ++
      "axiom any(S x, P p) \x7b |- all(x, p) \x7d")
    let word (text : String) : Token := ⟨.word, text, ⟨0, 0⟩⟩
    let name (text : String) : Expr := .node (word text) []
    let st : Statement :=
      { name := word "t"
        params := [⟨word "S", word "u"⟩, ⟨word "P", word "q"⟩]
        clauses := { conclusions :=
          [.node (word "all") [name "u", .node (word "all") [name "u", name "q"]]] } }
    let s : Scope := { deps := [(logic.compile []).table] }
    ∃ (t : Theorem) (step : Step) (snapshot : Snapshot) (σ : Suggestion),
      .thm t ∈ (s.elaborate (.thm st [name "any"])).symbols ∧ t.steps[0]? = some step ∧
      t.snapshots[0]? = some snapshot ∧ snapshot.useless ∧ σ ∈ snapshot.suggestions ∧
      σ.map (fun b => (b.1, b.2.canonical)) = [("p", "all(u,q)"), ("x", "u")] ∧
      σ.Suits step.rule.params := by
  intro logic word name st s
  have hdeps : ∀ table ∈ [(logic.compile []).table], table.Compiled fun _ => True :=
    List.forall_mem_singleton.mpr (.run (by simp) fun _ _ => trivial)
  have hempty : Scope.Reachable (fun _ => True) { deps := [] } := .empty
  have hreach : s.Reachable fun _ => True := hempty.compile fun _ _ => trivial
  obtain ⟨r, hr, hview⟩ := Option.bind_eq_some_iff.mp <| show
    ((st.elaborate s).1.bind fun r =>
      let t : Theorem := ⟨r, (r.citedSteps s [name "any"]).map Prod.snd⟩
      t.steps[0]?.bind fun step => t.snapshots[0]?.bind fun snapshot =>
        snapshot.suggestions[0]?.map fun σ => (snapshot.useless,
          step.conclusions.all (!·.isHole), σ.map fun b => (b.1, b.2.canonical))) =
      some (true, true, [("p", "all(u,q)"), ("x", "u")]) by decide +kernel
  obtain ⟨step, hstep, hview⟩ := Option.bind_eq_some_iff.mp hview
  obtain ⟨snapshot, hsnapshot, hview⟩ := Option.bind_eq_some_iff.mp hview
  obtain ⟨σ, hσ, hview⟩ := Option.map_eq_some_iff.mp hview
  rw [Prod.mk.injEq, Prod.mk.injEq, List.all_eq_true] at hview
  obtain ⟨huseless, hroots, htexts⟩ := hview
  have hσ' : σ ∈ snapshot.suggestions := List.mem_of_getElem? hσ
  have ht : .thm ⟨r, (r.citedSteps s [name "any"]).map Prod.snd⟩ ∈
      (s.elaborate (.thm st [name "any"])).symbols := by
    have hnone : (st.elaborate s).2 = [] := (st.isSome_elaborate_iff s).mp (by rw [hr]; rfl)
    have hsymbols := (s.declareThm_of_some (Prod.ext hr hnone) (Statement.free_of_elaborate hr)
      [name "any"]).1
    exact hsymbols ▸ List.mem_singleton_self _
  obtain ⟨⟨g, hg, c, hc, hmatch⟩, hiff⟩ :=
    (suggestion_types hdeps [] st [name "any"] ht hstep hsnapshot hσ').2.1 huseless
  have hsuits : σ.Suits step.rule.params := by
    refine (hiff g hg c hc hmatch (.inl hreach)).mpr fun hhole => ?_
    have hroot := hroots c hc
    rw [hhole] at hroot
    cases hroot
  exact ⟨_, step, snapshot, σ, ht, hstep, hsnapshot, huseless, hσ', htexts, hsuits⟩

/-- A conclusion that is nothing but a parameter is suggested for a goal of another type, and the
argument is turned down when it is written. In the second scope the constructor that the rule speaks of
was replaced by one of the same name for arguments of another type. -/
theorem suggestion_of_other_type :
    let base := Source.ofText "base" "type P Q axiom any(P a) \x7b |- a \x7d"
    let old := Source.ofText "sig" "type P Q term P f(P a) \x7b f a \x7d"
    let logic := Source.ofText "logic" "axiom any(P a) \x7b |- f(a) \x7d"
    let new := Source.ofText "sig" "type P Q term P f(Q a) \x7b f a \x7d"
    let user (goal step : String) : Source :=
      .ofText "user" ("thm t(Q x) \x7b |- " ++ goal ++ " \x7d = \x7b " ++ step ++ " \x7d")
    let view (f : CompiledFile) := f.theorems.flatMap fun t =>
      (t.steps.zip t.snapshots).map fun x => (x.1.rule.params, x.2.suggestions.map
        (·.map fun b => (b.1, b.2.canonical, b.2.type)))
    let wrong (goal : String) (deps : List Table) : Prop :=
      view ((user goal "any").compile deps) = [([⟨"P", "a"⟩], [[("a", "x", "Q")]])] ∧
        .argType ∈ ((Elaboration.start deps).run (user goal "any(x)").outline.decls).faults.map
          Diagnostic.fault
    wrong "x" [(base.compile []).table] ∧
      wrong "f(x)" [(new.compile []).table, (logic.compile [(old.compile []).table]).table] := by
  intro base old logic new user view wrong
  constructor
  all_goals
    change _ = _ ∧ _ ∈ _
    decide +kernel

end Axiomata
