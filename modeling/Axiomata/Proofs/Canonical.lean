import Axiomata.Proofs.Readability
import Axiomata.Proofs.Typing
import Axiomata.Proofs.Words

/-!
# Canonical texts identify terms

A canonical text does not say where the name of a variable ends and that of a constructor begins, nor
how many arguments there are. It can be read in only one way all the same, for three reasons: names
are made of word characters, no parameter has the name of a symbol, and a name stands for one
constructor, with one number of parameters. `Legible` says so of a list of symbols and a list of
parameters, `Term.Shaped.eq_of_canonical_eq` is that terms over legible ones are told apart, and
`Scope.Reachable.legible` shows that the scopes of a development are legible.
-/

namespace Axiomata

/-! ## Shapes -/

namespace Term

/-- Terms without holes whose constructors are among the given symbols and have as many arguments as
parameters, of whatever types. -/
inductive Shaped (symbols : List Symbol) (vars : List Param) : Term → Prop
  | var {name type : String} (h : ⟨type, name⟩ ∈ vars) : Shaped symbols vars (.var name type)
  | app {c : Ctor} {ts : List Term} (hc : .ctor c ∈ symbols) (arity : ts.length = c.arity)
    (hts : ∀ t ∈ ts, Shaped symbols vars t) : Shaped symbols vars (.app c ts)

variable {symbols : List Symbol} {vars : List Param}

/-- A term of the right types has the right shape. -/
theorem Typed.shaped {t : Term} (h : t.Typed symbols vars []) : t.Shaped symbols vars := by
  induction h with
  | var h => exact .var h
  | hole h => simp at h
  | app hc types _ ih => exact .app hc (by simpa [Ctor.arity] using congrArg List.length types) ih

/-- A substitution by terms of the right shape keeps the shape. -/
theorem Shaped.subst {vars' : List Param} {σ : Subst} {t : Term} (h : t.Shaped symbols vars)
    (hσ : ∀ p ∈ vars, ∃ a, σ.get? p.name = some a ∧ a.Shaped symbols vars') :
    (t.subst σ).Shaped symbols vars' := by
  induction h with
  | var h =>
    obtain ⟨a, ha, ha'⟩ := hσ _ h
    rw [Term.subst, ha]
    exact ha'
  | app hc arity _ ih =>
    rw [subst_app]
    refine .app hc (by simpa using arity) fun u hu => ?_
    obtain ⟨t, ht, rfl⟩ := List.mem_map.mp hu
    exact ih t ht

end Term

/-- Symbols and parameters that can be told apart by their names. -/
structure Legible (symbols : List Symbol) (vars : List Param) : Prop where
  ctor_plain : ∀ {c : Ctor}, .ctor c ∈ symbols → ∀ ch ∈ c.name.toList, Lexer.isWordChar ch
  var_plain : ∀ {p : Param}, p ∈ vars → ∀ ch ∈ p.name.toList, Lexer.isWordChar ch
  ctor_unique : ∀ {c d : Ctor}, .ctor c ∈ symbols → .ctor d ∈ symbols → c.name = d.name → c = d
  var_unique : ∀ {p q : Param}, p ∈ vars → q ∈ vars → p.name = q.name → p = q
  disjoint : ∀ {c : Ctor} {p : Param}, .ctor c ∈ symbols → p ∈ vars → c.name ≠ p.name

namespace Term

variable {symbols : List Symbol} {vars : List Param}

/-- With legible names, a term is made of plain names. -/
theorem Shaped.plain (hl : Legible symbols vars) {t : Term} (h : t.Shaped symbols vars) :
    t.Plain := by
  induction h with
  | var h => exact .intro (hl.var_plain h) (by simp [args])
  | app hc _ _ ih => exact .intro (hl.ctor_plain hc) ih

/-- Lists of terms are told apart by texts if their members are. -/
theorem eq_of_map_canonical_eq {ts us : List Term}
    (ih : ∀ t ∈ ts, ∀ u ∈ us, t.canonical = u.canonical → t = u)
    (h : ts.map canonical = us.map canonical) : ts = us := by
  induction ts generalizing us with
  | nil => exact (List.map_eq_nil_iff.mp h.symm).symm
  | cons t ts ih' =>
    cases us with
    | nil => simp at h
    | cons u us =>
      rw [List.map_cons, List.map_cons, List.cons.injEq] at h
      rw [ih t (by simp) u (by simp) h.1, ih' (fun t ht u hu => ih t (List.mem_cons_of_mem _ ht) u
        (List.mem_cons_of_mem _ hu)) h.2]

/-- By induction on the first term. The name in front of the text tells what the term is made of, and
the texts of the arguments tell the arguments. -/
theorem Shaped.eq_of_canonical_eq (hl : Legible symbols vars) {s t : Term}
    (hs : s.Shaped symbols vars) (ht : t.Shaped symbols vars) (h : s.canonical = t.canonical) :
    s = t := by
  induction hs generalizing t with
  | var hp =>
    obtain ⟨hhead, -⟩ := (((Shaped.var hp).plain hl).canonical_eq_iff (ht.plain hl)).mp h
    cases ht with
    | var hq =>
      cases hl.var_unique hp hq hhead
      rfl
    | app hd => exact absurd hhead.symm (hl.disjoint hd hp)
  | @app c ts hc arity hts ih =>
    obtain ⟨hhead, hargs⟩ :=
      (((Shaped.app hc arity hts).plain hl).canonical_eq_iff (ht.plain hl)).mp h
    cases ht with
    | var hq => exact absurd hhead (hl.disjoint hc hq)
    | app hd _ hus =>
      cases hl.ctor_unique hc hd hhead
      rw [eq_of_map_canonical_eq (fun t ht u hu h => ih t ht (hus u hu) h) hargs]

/-- Terms of the right shape are equal exactly if their texts are. -/
theorem Shaped.canonical_eq_iff (hl : Legible symbols vars) {s t : Term}
    (hs : s.Shaped symbols vars) (ht : t.Shaped symbols vars) : s.canonical = t.canonical ↔ s = t :=
  ⟨hs.eq_of_canonical_eq hl ht, fun h => by rw [h]⟩

/-- So a term may be searched for by its text. -/
theorem Shaped.mem_map_canonical_iff (hl : Legible symbols vars) {t : Term} {us : List Term}
    (ht : t.Shaped symbols vars) (hus : ∀ u ∈ us, u.Shaped symbols vars) :
    t.canonical ∈ us.map canonical ↔ t ∈ us := by
  constructor
  · intro h
    obtain ⟨u, hu, heq⟩ := List.mem_map.mp h
    rwa [← (hus u hu).eq_of_canonical_eq hl ht heq]
  · exact List.mem_map_of_mem

end Term

/-! ## The scopes of a development -/

/-- A symbol whose name is made of word characters, as those of its parameters are if it is a rule. -/
structure Symbol.Plain (x : Symbol) : Prop where
  name : ∀ c ∈ x.name.toList, Lexer.isWordChar c
  params : ∀ r, x.rule? = some r → ∀ p ∈ r.params, ∀ c ∈ p.name.toList, Lexer.isWordChar c

/-- A rule takes its name and those of its parameters from the statement. -/
theorem Statement.Named.plain {st : Statement} (h : st.Named Token.Plain) {s : Scope} {r : Rule}
    (hr : (st.elaborate s).1 = some r) :
    (∀ c ∈ r.name.toList, Lexer.isWordChar c) ∧
      ∀ p ∈ r.params, ∀ c ∈ p.name.toList, Lexer.isWordChar c := by
  obtain ⟨-, hname, hparams, -⟩ := Statement.elaborate_eq_some hr
  rw [hname, hparams]
  refine ⟨h.name.token, fun p hp => ?_⟩
  obtain ⟨q, hq, rfl⟩ := List.mem_map.mp hp
  exact (h.params q hq).name.token

/-- What a written declaration adds has plain names. -/
theorem Scope.Adds.plain {s : Scope} {d : Decl} (hd : d.Written) {x : Symbol} (h : s.Adds d x) :
    x.Plain := by
  have hnamed := hd.named
  cases h with
  | type ht => exact ⟨(hnamed _ ht).token, fun r hr => by cases hr⟩
  | ctor _ => exact ⟨hnamed.1.token, fun r hr => by cases hr⟩
  | postulate hr =>
    obtain ⟨hname, hparams⟩ := hnamed.plain hr
    exact ⟨hname, fun r hr => Option.some.inj hr ▸ hparams⟩
  | thm hr =>
    obtain ⟨hname, hparams⟩ := hnamed.plain hr
    exact ⟨hname, fun r hr => Option.some.inj hr ▸ hparams⟩

namespace Scope.Reachable

variable {s : Scope}

/-- All names in a scope that comes of written declarations are plain. -/
theorem plain_name (h : s.Reachable Decl.Written) {x : Symbol} (hx : x ∈ s.symbols) :
    ∀ c ∈ x.name.toList, Lexer.isWordChar c :=
  h.forall_symbols (P := fun _ x => ∀ c ∈ x.name.toList, Lexer.isWordChar c) (fun _ hx => hx)
    (fun _ hd _ hadds => (hadds.plain hd).name) x hx

/-- Parameters that are accepted in a scope can be told from its symbols. -/
theorem legible (h : s.Reachable Decl.Written) {ps : List ParamDecl}
    (hps : s.badParam? [] ps = none) (hplain : ∀ p ∈ ps, p.name.Plain) :
    Legible s.symbols (ps.map ParamDecl.toParam) := by
  obtain ⟨-, hnodup⟩ := badParam?_eq_none_iff.mp hps
  refine ⟨fun hc => h.plain_name hc, ?_, ?_, ?_, ?_⟩
  · intro p hp
    obtain ⟨q, hq, rfl⟩ := List.mem_map.mp hp
    exact hplain q hq
  · intro c d hc hd hname
    exact Symbol.ctor.inj (h.eq_of_name_eq hc hd hname)
  · intro p q hp hq hname
    obtain ⟨p', hp', rfl⟩ := List.mem_map.mp hp
    obtain ⟨q', hq', rfl⟩ := List.mem_map.mp hq
    rw [List.inj_on_of_nodup_map hnodup hp' hq' hname]
  · intro c p hc hp hname
    obtain ⟨q, hq, rfl⟩ := List.mem_map.mp hp
    have hnone : s.resolve q.name.text = none := resolve_eq_none_of_badParam hps hq
    have hsome : s.resolve q.name.text = some (.ctor c) :=
      h.resolve_eq_some_iff.mpr ⟨hc, hname⟩
    rw [hnone] at hsome
    cases hsome

end Scope.Reachable

/-- The terms that come up where a statement with the given parameters is elaborated and its proof
replayed: those of expressions, and those that rules give when terms are put for all of their
parameters. -/
inductive Term.Arises (s : Scope) (params : List Param) : Term → Prop
  | instantiate {e : Expr} {t : Term} (h : (e.instantiate s params).1 = some t) : Arises s params t
  | conclusion {name : String} {r : Rule} {args : List Term} {t : Term}
    (hr : s.rule? name = some r) (hlen : args.length = r.params.length)
    (hargs : ∀ a ∈ args, Arises s params a) (ht : t ∈ (r.apply args).conclusions) :
    Arises s params t
  | hypothesis {name : String} {r : Rule} {args : List Term} {t : Term}
    (hr : s.rule? name = some r) (hlen : args.length = r.params.length)
    (hargs : ∀ a ∈ args, Arises s params a) (ht : t ∈ (r.apply args).hypotheses) :
    Arises s params t

/-- Instantiating a rule with arguments of the right shape gives terms of the right shape. -/
theorem Term.Shaped.bindings {symbols : List Symbol} {vars : List Param} {r : Rule}
    {args : List Term} (hlen : args.length = r.params.length)
    (hargs : ∀ a ∈ args, a.Shaped symbols vars) {t : Term} (h : t.Typed symbols r.params []) :
    (t.subst (r.bindings args)).Shaped symbols vars := by
  refine h.shaped.subst fun p hp => ?_
  obtain ⟨a, ha⟩ := Option.isSome_iff_exists.mp (Rule.get?_bindings_isSome hlen hp)
  exact ⟨a, ha, hargs a (Rule.mem_args_of_get?_bindings ha).2⟩

/-- Whatever arises in a proof has the right shape. -/
theorem Term.Arises.shaped {admitted : Decl → Prop} {s : Scope} (hs : s.Reachable admitted)
    {params : List Param} {t : Term} (h : t.Arises s params) : t.Shaped s.symbols params := by
  induction h with
  | instantiate h => exact (Expr.typed_instantiate h).shaped
  | conclusion hr hlen _ ht ih =>
    obtain ⟨x, hx, hr⟩ := Scope.mem_symbols_of_rule? hr
    obtain ⟨c, hc, rfl⟩ := List.mem_map.mp ht
    exact .bindings hlen ih ((hs.wellFormed hx hr).conclusions c hc)
  | hypothesis hr hlen _ ht ih =>
    obtain ⟨x, hx, hr⟩ := Scope.mem_symbols_of_rule? hr
    obtain ⟨c, hc, rfl⟩ := List.mem_map.mp ht
    exact .bindings hlen ih ((hs.wellFormed hx hr).hypotheses c hc)

open Classical in
/-- With terms that can be told apart by their canonical texts, a step takes off the goals that are
among its conclusions, and leaves out what is among the hypotheses. -/
theorem Step.advance?_eq_some_iff {symbols : List Symbol} {vars : List Param}
    (hl : Legible symbols vars) {step : Step} {hypotheses goals next : List Term}
    (hstep : ∀ t ∈ step.conclusions ++ step.hypotheses, t.Shaped symbols vars)
    (hhyps : ∀ t ∈ hypotheses, t.Shaped symbols vars) (hgoals : ∀ t ∈ goals, t.Shaped symbols vars) :
    step.advance? hypotheses goals = some next ↔
      (∃ g ∈ goals, g ∈ step.conclusions) ∧
        next = step.hypotheses.filter (· ∉ hypotheses) ++
          goals.filter (fun g => g ∉ step.conclusions ∧ g ∉ hypotheses) := by
  rw [List.forall_mem_append] at hstep
  have hproved : ∀ g ∈ goals,
      (step.conclusions.map Term.canonical).contains g.canonical = decide (g ∈ step.conclusions) := by
    intro g hg
    simp only [List.contains_eq_mem, (hgoals g hg).mem_map_canonical_iff hl hstep.1]
  have hassumed : ∀ t : Term, t.Shaped symbols vars →
      (hypotheses.map Term.canonical).contains t.canonical = decide (t ∈ hypotheses) := by
    intro t ht
    simp only [List.contains_eq_mem, ht.mem_map_canonical_iff hl hhyps]
  have hany : (goals.any fun g => (step.conclusions.map Term.canonical).contains g.canonical) = true ↔
      ∃ g ∈ goals, g ∈ step.conclusions := by
    rw [List.any_eq_true]
    exact exists_congr fun g => and_congr_right fun hg => by rw [hproved g hg, decide_eq_true_iff]
  have hnew : step.hypotheses.filter
        (fun h => !(hypotheses.map Term.canonical).contains h.canonical) =
      step.hypotheses.filter (· ∉ hypotheses) :=
    List.filter_congr fun h hh => by
      rw [hassumed h (hstep.2 h hh)]
      simp
  have hcarried : goals.filter (fun g => !(step.conclusions.map Term.canonical).contains g.canonical &&
        !(hypotheses.map Term.canonical).contains g.canonical) =
      goals.filter (fun g => g ∉ step.conclusions ∧ g ∉ hypotheses) :=
    List.filter_congr fun g hg => by
      rw [hproved g hg, hassumed g (hgoals g hg)]
      simp
  simp only [Step.advance?, hnew, hcarried, hany, Option.ite_none_right_eq_some, Option.some.injEq,
    eq_comm (a := next)]

open Classical in
/-- Terms over parameters that are accepted in a scope of a development are the same if and only if
their canonical texts are, whatever the templates are. So comparing terms, taking goals off the list
and leaving out what is assumed is done as if on the terms themselves. -/
theorem canonical_identifies_terms {s : Scope} (hs : s.Reachable Decl.Written)
    {ps : List ParamDecl} (hps : s.badParam? [] ps = none)
    (hwords : ∀ p ∈ ps, p.name.isWord ∧ ∃ text : Source, p.name ∈ text.tokens) :
    (∀ t u : Term, t.Arises s (ps.map ParamDecl.toParam) → u.Arises s (ps.map ParamDecl.toParam) →
      (t.canonical = u.canonical ↔ t = u) ∧ (t == u ↔ t = u)) ∧
    ∀ (step : Step) (hypotheses goals next : List Term),
      (∀ t ∈ step.conclusions ++ step.hypotheses ++ hypotheses ++ goals,
        t.Arises s (ps.map ParamDecl.toParam)) →
      (step.advance? hypotheses goals = some next ↔
        (∃ g ∈ goals, g ∈ step.conclusions) ∧
          next = step.hypotheses.filter (· ∉ hypotheses) ++
            goals.filter (fun g => g ∉ step.conclusions ∧ g ∉ hypotheses)) := by
  have hplain : ∀ p ∈ ps, p.name.Plain := by
    intro p hp
    obtain ⟨hword, text, htoken⟩ := hwords p hp
    exact text.plain_of_mem_tokens htoken (by simp [Token.isName, hword])
  have hl := hs.legible hps hplain
  constructor
  · intro t u ht hu
    have hiff := (ht.shaped hs).canonical_eq_iff hl (hu.shaped hs)
    exact ⟨hiff, Term.beq_iff.trans hiff⟩
  · intro step hypotheses goals next h
    simp only [List.forall_mem_append] at h
    obtain ⟨⟨⟨hconclusions, hhypotheses⟩, hassumed⟩, hgoals⟩ := h
    refine Step.advance?_eq_some_iff hl ?_ (fun t ht => (hassumed t ht).shaped hs)
      fun t ht => (hgoals t ht).shaped hs
    rw [List.forall_mem_append]
    exact ⟨fun t ht => (hconclusions t ht).shaped hs, fun t ht => (hhypotheses t ht).shaped hs⟩

/-- The two ways to put three words next to each other are shown alike. -/
theorem canonical_identifies_terms_juxtaposed :
    let text := Source.ofText "words" "type W term W cat(W p, W q) \x7b p q \x7d"
    let s := ((Elaboration.start []).run text.outline.decls).scope
    let ps := (Source.ofText "params" "x y z").tokens.map (⟨⟨.word, "W", ⟨0, 1⟩⟩, ·⟩)
    s.Reachable Decl.Written ∧ s.badParam? [] ps = none ∧
      ∃ t u : Term, t.Arises s (ps.map ParamDecl.toParam) ∧ u.Arises s (ps.map ParamDecl.toParam) ∧
        t.display = u.display ∧ t ≠ u ∧ (t == u) = false := by
  intro text s ps
  have hs : s.Reachable Decl.Written :=
    Scope.Reachable.run .empty fun d hd => ⟨text, hd⟩
  have hps : s.badParam? [] ps = none := by decide +kernel
  have hwords : ∀ p ∈ ps, p.name.isWord ∧ ∃ text : Source, p.name ∈ text.tokens := by
    intro p hp
    obtain ⟨name, hname, rfl⟩ := List.mem_map.mp hp
    have hword : ∀ t ∈ (Source.ofText "params" "x y z").tokens, t.isWord := by decide +kernel
    exact ⟨hword name hname, _, hname⟩
  let word (text : String) (args : List Expr) : Expr := .node ⟨.word, text, ⟨0, 0⟩⟩ args
  obtain ⟨t, ht, hleft⟩ := Option.map_eq_some_iff.mp <| show
    ((word "cat" [word "cat" [word "x" [], word "y" []], word "z" []]).instantiate s
      (ps.map ParamDecl.toParam)).1.map (fun t => (t.display, t.canonical)) =
      some ("xyz", "cat(cat(x,y),z)") by decide +kernel
  obtain ⟨u, hu, hright⟩ := Option.map_eq_some_iff.mp <| show
    ((word "cat" [word "x" [], word "cat" [word "y" [], word "z" []]]).instantiate s
      (ps.map ParamDecl.toParam)).1.map (fun t => (t.display, t.canonical)) =
      some ("xyz", "cat(x,cat(y,z))") by decide +kernel
  simp only [Prod.mk.injEq] at hleft hright
  have hiff := (canonical_identifies_terms hs hps hwords).1 t u (.instantiate ht) (.instantiate hu)
  have hne : t ≠ u := fun h => by simpa [hleft, hright] using hiff.1.mpr h
  refine ⟨hs, hps, t, u, .instantiate ht, .instantiate hu, hleft.1.trans hright.1.symm, hne, ?_⟩
  simpa using mt hiff.2.mp hne

end Axiomata
