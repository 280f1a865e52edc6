import Axiomata.Development.Basic
import Axiomata.Proofs.Canonical
import Axiomata.Proofs.Derivation
import Axiomata.Proofs.Replay

/-!
# Soundness

The theorems of a development without faults are derivable from its postulates alone. A step without
faults applies its rule to arguments that the rule admits (`Expr.admits_of_toStep`). A replay of such
steps that leaves no goal shows that the conclusions are derivable, as canonical texts stand for terms
(`Scope.derivable_of_valid`). This is kept by declarations, files and whole developments.
-/

namespace Axiomata

/-! ## Steps without faults -/

namespace Rule

variable {r : Rule}

/-- If their number is not reported, there are as many arguments as parameters. -/
theorem length_eq_of_countFault {root : Token} {es : List Expr} (h : r.countFault root es = []) :
    es.length = r.params.length := by
  rw [countFault] at h
  split at h
  · cases h
  split at h
  · cases h
  · omega

/-- If no argument is reported, all are of the right types. -/
theorem types_of_misfits {es : List Expr} {args : List Term} (hlen : es.length = r.params.length)
    (hargs : args.length = es.length) (h : r.misfits es (args.map some) = []) :
    args.map Term.type = r.params.map Param.type := by
  rw [misfits, List.filterMap_eq_nil_iff] at h
  refine List.ext_getElem (by simp [hargs, hlen]) fun i hi hi' => ?_
  simp only [List.length_map] at hi hi'
  have hi'' : i < es.length := hargs ▸ hi
  have hnone := h (r.params[i], es[i], some args[i])
    (List.mem_iff_getElem.mpr ⟨i, by simp [hi, hi', hi''], by simp⟩)
  simpa using hnone

/-- If all arguments are of the right types, none is reported. -/
theorem misfits_eq_nil {args : List Term}
    (h : args.map Term.type = r.params.map Param.type) (es : List Expr) :
    r.misfits es (args.map some) = [] := by
  rw [misfits, List.filterMap_eq_nil_iff]
  rintro ⟨p, e, t⟩ hmem
  obtain ⟨i, hi⟩ := List.mem_iff_getElem?.mp hmem
  rw [List.getElem?_zip_eq_some, List.getElem?_zip_eq_some, List.getElem?_map,
    Option.map_eq_some_iff] at hi
  obtain ⟨hp, -, a, ha, rfl⟩ := hi
  have htypes : (args.map Term.type)[i]? = (r.params.map Param.type)[i]? := by rw [h]
  rw [List.getElem?_map, List.getElem?_map, ha, hp] at htypes
  simpa using htypes

/-- Where the arguments have the right types, there are no holes to be filled in. -/
theorem fill_slots {args : List Term} (h : args.map Term.type = r.params.map Param.type) :
    r.fill (r.slots (args.map some)) = args := by
  have hlen : args.length = r.params.length := by simpa using congrArg List.length h
  refine List.ext_getElem (by simp [fill, hlen]) fun i hi hi' => ?_
  have hip : i < r.params.length := hlen ▸ hi'
  have htype : args[i].type = r.params[i].type := by
    have htypes : (args.map Term.type)[i]? = (r.params.map Param.type)[i]? := by rw [h]
    simpa [hi', hip] using htypes
  simp [fill, slots, hi', hip, Option.filter_some, htype]

end Rule

namespace Expr

variable {scope : Scope}

/-- Expressions without faults stand for terms without holes. -/
theorem exists_of_instantiateAll {params : List Param} {es : List Expr}
    (h : (instantiateAll scope params es).2 = []) :
    ∃ ts : List Term, (instantiateAll scope params es).1 = ts.map some ∧
      ∀ t ∈ ts, t.Typed scope.symbols params [] := by
  induction es with
  | nil => exact ⟨[], rfl, by simp⟩
  | cons e es ih =>
    rw [instantiateAll, List.append_eq_nil_iff] at h
    obtain ⟨t, ht⟩ := Option.isSome_iff_exists.mp (isSome_instantiate h.1)
    obtain ⟨ts, hts, htyped⟩ := ih h.2
    refine ⟨t :: ts, ?_, List.forall_mem_cons.mpr ⟨typed_instantiate ht, htyped⟩⟩
    rw [instantiateAll, ht, hts, List.map_cons]

/-- With an argument of the right type for each parameter, a step can only fail to keep apart what it
has to. -/
theorem toStep_of_types {statement rule : Rule} {root : Token} {args : List Expr} {ts : List Term}
    (hrule : scope.rule? root.text = some rule)
    (hts : args.map (fun e => (e.instantiate scope statement.params).1) = ts.map some)
    (htypes : ts.map Term.type = rule.params.map Param.type) :
    let step := Step.within statement rule ts
    (node root args).toStep scope statement =
      (some step, step.violations.map fun _ => ⟨.notDistinct, root⟩) := by
  have hlen : args.length = rule.params.length := by
    simpa using (congrArg List.length hts).trans (by simpa using congrArg List.length htypes)
  have hinner : (instantiateAll scope statement.params args).2 = [] := by
    rw [instantiateAll_snd, List.flatMap_eq_nil_iff]
    intro e he
    have hmem : (e.instantiate scope statement.params).1 ∈ ts.map some := hts ▸ List.mem_map_of_mem he
    obtain ⟨t, -, ht⟩ := List.mem_map.mp hmem
    exact instantiate_snd_eq_nil ht.symm
  simp [toStep, hrule, instantiateAll_fst, hts, hinner, Rule.fill_slots htypes,
    Rule.misfits_eq_nil htypes, Rule.countFault, hlen]

/-- A step without faults: an argument of the right type for each parameter, and no violations. -/
theorem toStep_eq_iff {statement : Rule} {root : Token} {args : List Expr} {step : Step} :
    (node root args).toStep scope statement = (some step, []) ↔
      ∃ rule ts, scope.rule? root.text = some rule ∧
        args.map (fun e => (e.instantiate scope statement.params).1) = ts.map some ∧
        ts.map Term.type = rule.params.map Param.type ∧
        (Step.within statement rule ts).violations = [] ∧ step = Step.within statement rule ts := by
  constructor
  · intro h
    simp only [toStep] at h
    split at h
    · simp at h
    · rename_i rule hrule
      rw [Prod.mk.injEq, Option.some.injEq] at h
      simp only [List.append_eq_nil_iff, List.map_eq_nil_iff] at h
      obtain ⟨rfl, ⟨⟨hcount, hinner⟩, hmisfits⟩, hviolations⟩ := h
      obtain ⟨ts, hts, -⟩ := exists_of_instantiateAll hinner
      have hlen : ts.length = args.length := by
        simpa [instantiateAll_fst] using (congrArg List.length hts).symm
      rw [hts] at hmisfits hviolations ⊢
      have htypes := Rule.types_of_misfits (Rule.length_eq_of_countFault hcount) hlen hmisfits
      rw [Rule.fill_slots htypes] at hviolations ⊢
      rw [instantiateAll_fst] at hts
      exact ⟨rule, ts, hrule, hts, htypes, hviolations, rfl⟩
  · rintro ⟨rule, ts, hrule, hts, htypes, hviolations, rfl⟩
    rw [toStep_of_types hrule hts htypes, hviolations, List.map_nil]

/-- A step without faults applies a rule of the scope to arguments that the rule admits. -/
theorem admits_of_toStep {statement : Rule} {e : Expr} (h : (e.toStep scope statement).2 = [])
    {step : Step} (hstep : (e.toStep scope statement).1 = some step) :
    (∃ x ∈ scope.symbols, x.rule? = some step.rule) ∧
      step.rule.Admits scope.symbols statement step.args := by
  cases e with
  | node root es =>
    obtain ⟨rule, ts, hrule, hts, htypes, hviolations, rfl⟩ := toStep_eq_iff.mp (Prod.ext hstep h)
    refine ⟨Scope.mem_symbols_of_rule? hrule, .of_violations ⟨htypes, ?_⟩ hviolations⟩
    exact typed_instantiateEach (instantiateEach_eq_some_iff.mpr hts)

end Expr

/-! ## Declarations -/

namespace Scope

variable {s : Scope}

/-- What a valid proof without faults in its steps shows is derivable. -/
theorem derivable_of_valid (hs : s.Reachable Decl.Written) (hproved : Proved s.symbols)
    {st : Statement} {proof : List Expr} (hd : (Decl.thm st proof).Written) {r : Rule}
    (hr : (st.elaborate s).1 = some r) (hsteps : r.stepFaults s proof = [])
    (hvalid : Theorem.valid ⟨r, (r.citedSteps s proof).map Prod.snd⟩) :
    ∀ c ∈ r.conclusions, Derivable s.symbols r c := by
  obtain ⟨hwf, -, hparams, hps⟩ := Statement.elaborate_eq_some hr
  have hl : Legible s.symbols r.params := by
    rw [hparams]
    exact hs.legible hps fun p hp => ((hd.named.params p hp).name).token
  -- Terms are told apart by their canonical texts, so a text is as good as the term it is of.
  let P (text : String) : Prop :=
    ∀ t : Term, t.Typed s.symbols r.params [] → t.canonical = text → Derivable s.symbols r t
  have hP {t : Term} (ht : t.Typed s.symbols r.params []) :
      P t.canonical ↔ Derivable s.symbols r t := by
    refine ⟨fun h => h t ht rfl, fun h u hu heq => ?_⟩
    rwa [hu.shaped.eq_of_canonical_eq hl ht.shaped heq]
  have hall : ∀ c ∈ r.conclusions, P c.canonical := by
    refine Theorem.forall_conclusions_of_valid hvalid ?_ ?_
    · exact fun u hu => (hP (hwf.hypotheses u hu)).mpr (.hypothesis hu)
    · intro step hstep hhyps c hc
      obtain ⟨e, he, htoStep⟩ := Rule.exists_of_mem_citedSteps hstep
      have hclean : (e.toStep s r).2 = [] := List.flatMap_eq_nil_iff.mp hsteps e he
      obtain ⟨⟨x, hx, hrule⟩, hadmits⟩ := Expr.admits_of_toStep hclean htoStep
      have hwf' := hs.wellFormed hx hrule
      have htyped {t : Term} (ht : t.Typed s.symbols step.rule.params []) :=
        hadmits.fits.typed_subst hwf'.nodup ht
      have hderivable : ∀ h ∈ step.hypotheses, Derivable s.symbols r h := by
        intro h hh
        obtain ⟨u, hu, rfl⟩ := List.mem_map.mp hh
        exact (hP (htyped (hwf'.hypotheses u hu))).mp (hhyps _ hh)
      obtain ⟨u, hu, rfl⟩ := List.mem_map.mp hc
      refine (hP (htyped (hwf'.conclusions u hu))).mpr ?_
      exact hproved.derivable (fun x hx r hr => hs.wellFormed hx hr) hx hrule hadmits hderivable _ hc
  exact fun c hc => (hP (hwf.conclusions c hc)).mp (hall c hc)

/-- If nothing is reported of a theorem, its steps are without faults and leave nothing to prove. -/
theorem valid_of_declareThm {st : Statement} {proof : List Expr} {r : Rule}
    (hr : (st.elaborate s).1 = some r) (h : (s.declareThm st proof).faults = []) :
    r.stepFaults s proof = [] ∧ Theorem.valid ⟨r, (r.citedSteps s proof).map Prod.snd⟩ := by
  simp only [declareThm] at h
  split at h
  · rename_i hnone
    rw [hnone] at hr
    cases hr
  · rename_i r' faults hsome
    rw [hsome] at hr
    cases hr
    simp only [Outcome.faults_append, faults_report, List.append_eq_nil_iff] at h
    refine ⟨h.1.1.1.2, ?_⟩
    by_contra hvalid
    simp [hvalid] at h

/-- A declaration without faults adds only theorems that are derivable. -/
theorem proved_elaborate (hs : s.Reachable Decl.Written) (hproved : Proved s.symbols) {d : Decl}
    (hd : d.Written) (hfaults : (s.elaborate d).faults = []) :
    Proved (s.append (s.elaborate d).symbols).symbols := by
  intro t ht
  rw [symbols_append] at ht ⊢
  refine fun c hc => Derivable.mono (List.subset_append_left _ _) ?_
  rcases List.mem_append.mp ht with hold | hnew
  · exact hproved t hold c hc
  · cases adds_of_mem_elaborate hnew with
    | @thm st proof r hr =>
      obtain ⟨hsteps, hvalid⟩ := valid_of_declareThm hr hfaults
      exact derivable_of_valid hs hproved hd hr hsteps hvalid c hc

end Scope

/-! ## Files -/

/-- By induction on the declarations. Each theorem is proved from the symbols in front of it. -/
theorem Elaboration.proved_run {e : Elaboration} (hs : e.scope.Reachable Decl.Written)
    (hproved : Proved e.scope.symbols) {ds : List Decl} (hds : ∀ d ∈ ds, d.Written)
    (hfaults : (e.run ds).faults = []) : Proved (e.run ds).scope.symbols := by
  induction ds generalizing e with
  | nil => exact hproved
  | cons d ds ih =>
    rw [List.forall_mem_cons] at hds
    have hdeclare : (e.declare d).faults = [] :=
      List.prefix_nil.mp (hfaults ▸ (e.declare d).faults_prefix_run ds)
    have hnone : (e.scope.elaborate d).faults = [] := (List.append_eq_nil_iff.mp hdeclare).2
    exact ih (hs.declare hds.1) (Scope.proved_elaborate hs hproved hds.1 hnone) hds.2 hfaults

/-- Files compiled one after the other, each against the tables of those before it. -/
def Source.compileEach (deps : List Table) : List Source → List CompiledFile
  | [] => []
  | s :: ss =>
    let f := s.compile deps
    f :: compileEach (deps ++ [f.table]) ss

/-- By induction on the files. Each is compiled against the tables of those in front of it. -/
theorem Source.proved_compileEach {deps : List Table} {ss : List Source}
    (hs : Scope.Reachable Decl.Written { deps }) (hproved : Proved (deps.flatMap Table.symbols))
    (hclean : ∀ f ∈ compileEach deps ss, f.clean) :
    Proved (deps.flatMap Table.symbols ++ (compileEach deps ss).flatMap (·.table.symbols)) := by
  induction ss generalizing deps with
  | nil => simpa [compileEach] using hproved
  | cons s ss ih =>
    obtain ⟨hfile, hrest⟩ := List.forall_mem_cons.mp hclean
    let e := (Elaboration.start deps).run s.outline.decls
    have hwritten : ∀ d ∈ s.outline.decls, d.Written := fun d hd => ⟨s, hd⟩
    have hfaults : e.faults = [] := by
      rw [CompiledFile.clean, Bool.and_eq_true, List.isEmpty_iff, List.isEmpty_iff] at hfile
      exact List.eq_nil_of_length_eq_zero (by simpa [Source.compile] using congrArg List.length hfile.2)
    have hdeps : e.scope.deps = deps := Elaboration.deps_run _ _
    have hown : Proved e.scope.symbols :=
      Elaboration.proved_run hs (by simpa [Elaboration.start, Scope.symbols] using hproved) hwritten
        hfaults
    have hall := ih (hs.compile hwritten) (by simpa [Source.compile, Scope.symbols, hdeps] using hown)
      hrest
    simpa [compileEach, Source.compile, e] using hall

/-! ## Developments -/

namespace Development

variable {d : Development}

/-- The files in front of a file that is not compiled yet, once all of them are. -/
theorem depsOf_eq {fs : List CompiledFile} {name : String} {names : List String}
    (hfiles : d.files = fs.reverse) (horder : d.order = fs.map CompiledFile.name ++ name :: names)
    (hnodup : d.order.Nodup) : d.depsOf name = fs.map CompiledFile.table := by
  rw [horder, List.nodup_append] at hnodup
  have hbefore : d.before name = fs.map CompiledFile.name := by
    have hne : ∀ other ∈ fs.map CompiledFile.name, (other != name) = true :=
      fun other hother => bne_iff_ne.mpr (hnodup.2.2 other hother name List.mem_cons_self)
    rw [before, horder, if_pos (by simp), List.takeWhile_append_of_pos hne,
      List.takeWhile_cons_of_neg (by simp), List.append_nil]
  have hnames : (d.files.map CompiledFile.name).Nodup := by
    rw [hfiles, List.map_reverse, List.nodup_reverse]
    exact hnodup.1
  rw [depsOf, hbefore, List.filterMap_map, ← List.filterMap_eq_map]
  refine List.filterMap_congr fun f hf => ?_
  have hmem : f ∈ d.files := by rwa [hfiles, List.mem_reverse]
  have hfile : d.file? f.name = some f := find?_key_eq_some hnames hmem
  rw [Function.comp_apply, hfile]
  rfl

/-- Files that are compiled once each, in their order, are compiled one after the other. -/
theorem files_foldl_compile {fs : List CompiledFile} {ss : List Source}
    (hfiles : d.files = fs.reverse)
    (horder : d.order = fs.map CompiledFile.name ++ ss.map Source.name) (hnodup : d.order.Nodup) :
    (ss.foldl compile d).files =
      (fs ++ Source.compileEach (fs.map CompiledFile.table) ss).reverse := by
  induction ss generalizing d fs with
  | nil => simpa [Source.compileEach] using hfiles
  | cons s ss ih =>
    have hdeps := depsOf_eq hfiles horder hnodup
    have hnew : d.files.filter (·.name != s.name) = d.files := by
      rw [List.filter_eq_self, hfiles]
      rw [horder, List.nodup_append] at hnodup
      intro f hf
      refine bne_iff_ne.mpr (hnodup.2.2 f.name ?_ s.name List.mem_cons_self)
      exact List.mem_map_of_mem (List.mem_reverse.mp hf)
    let f := s.compile (fs.map CompiledFile.table)
    have hfiles' : (d.compile s).files = (fs ++ [f]).reverse := by
      rw [compile, hdeps, hnew, hfiles, List.reverse_append]
      rfl
    have horder' : (d.compile s).order = (fs ++ [f]).map CompiledFile.name ++ ss.map Source.name := by
      simp only [compile, horder, List.map_append, List.append_assoc]
      rfl
    rw [List.foldl_cons, ih hfiles' horder' hnodup]
    simp [Source.compileEach, f]

end Development

theorem Source.map_source_compileEach (deps : List Table) (ss : List Source) :
    (compileEach deps ss).map CompiledFile.source = ss := by
  induction ss generalizing deps with
  | nil => rfl
  | cons s ss ih =>
    rw [compileEach, List.map_cons, ih]
    rfl

/-- In a development of files that are compiled once each, in their dependency order, and are all
without faults, the conclusions of every theorem are derivable from its hypotheses by postulates. -/
theorem derivable_of_clean_development (sources : List Source)
    (hnames : (sources.map Source.name).Nodup) :
    let d := sources.foldl Development.compile (Development.arrange {} (sources.map Source.name))
    d.files.map CompiledFile.source = sources.reverse ∧
    ((∀ f ∈ d.files, f.clean) → ∀ f ∈ d.files, ∀ t ∈ f.theorems, ∀ c ∈ t.statement.conclusions,
      Derivable (d.files.flatMap (·.table.symbols)) t.statement c) := by
  intro d
  have hfiles : d.files = ([] ++ Source.compileEach [] sources).reverse :=
    Development.files_foldl_compile rfl rfl hnames
  rw [List.nil_append] at hfiles
  constructor
  · rw [hfiles, List.map_reverse, Source.map_source_compileEach]
  · intro hclean f hf t ht c hc
    have hproved : Proved ((Source.compileEach [] sources).flatMap (·.table.symbols)) := by
      refine Source.proved_compileEach .empty (fun t ht => ?_) fun f hf => hclean f ?_
      · simp at ht
      · rwa [hfiles, List.mem_reverse]
    have hsubset : (Source.compileEach [] sources).flatMap (·.table.symbols) ⊆
        d.files.flatMap (·.table.symbols) := by
      intro x hx
      obtain ⟨g, hg, hx⟩ := List.mem_flatMap.mp hx
      exact List.mem_flatMap.mpr ⟨g, by rwa [hfiles, List.mem_reverse], hx⟩
    refine (hproved t ?_ c hc).mono hsubset
    exact List.mem_flatMap.mpr ⟨f, by rwa [hfiles, List.mem_reverse] at hf,
      CompiledFile.mem_theorems.mp ht⟩

/-- A theorem that is used in another file, where more has to be kept apart. -/
theorem derivable_of_clean_development_generalization :
    let sources := [
      Source.ofText "logic" "type P S term P all(S x, P p) \x7b all x p \x7d",
      Source.ofText "gen" "axiom gen(S x, P p) \x7b #diff x p -| p |- all(x, p) \x7d",
      Source.ofText "two" "thm two(S x, S y, P p) \x7b #diff x y p -| p |- all(x, all(y, p)) \x7d
        = \x7b gen(x, all(y, p)) gen(y, p) \x7d",
      Source.ofText "three" "thm three(P q, S u, S v, S w) \x7b #diff u v w q -| q
        |- all(u, all(v, all(w, q))) \x7d = \x7b two(u, v, all(w, q)) gen(w, q) \x7d"]
    let d := sources.foldl Development.compile (Development.arrange {} (sources.map Source.name))
    (sources.map Source.name).Nodup ∧ (∀ f ∈ d.files, f.clean) ∧
      ∃ f ∈ d.files, ∃ t ∈ f.theorems, ∃ c ∈ t.statement.conclusions,
        c.canonical = "all(u,all(v,all(w,q)))" ∧
          Derivable (d.files.flatMap (·.table.symbols)) t.statement c := by
  intro sources d
  have hnames : (sources.map Source.name).Nodup := by decide +kernel
  have hrun : (d.files.all (·.clean) && d.files.any fun f => f.theorems.any fun t =>
      t.statement.conclusions.any (·.canonical == "all(u,all(v,all(w,q)))")) = true := by
    decide +kernel
  simp only [Bool.and_eq_true, List.all_eq_true, List.any_eq_true, beq_iff_eq] at hrun
  obtain ⟨hclean, hshown⟩ := hrun
  obtain ⟨f, hf, t, ht, c, hc, hcanonical⟩ := hshown
  exact ⟨hnames, hclean, f, hf, t, ht, c, hc, hcanonical,
    (derivable_of_clean_development sources hnames).2 hclean f hf t ht c hc⟩

end Axiomata
