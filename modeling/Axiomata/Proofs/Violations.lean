import Axiomata.Proofs.Soundness
import Axiomata.Proofs.TypedSymbols

/-!
# What a step fails to keep apart

The violations of a step are found name by name: a name that has to be apart from itself, and then the
first parameter that is not declared apart. By looking no further only some of the pairs are listed, but
each of them is one that the rule of the step asks to be apart and the statement does not keep apart
(`Distinct.mem_violations`), and there is one as soon as anything is left together. For a rule of a
compiled file all of this can be said of the names at the ends of its arguments (`Rule.Requires`).

Arguments end in variables and in constants, and a constant is told by what it is shown as. So constants
take part in the check like variables do: one that stands on both sides counts as a name that has to be
apart from itself, and one that is shown like a parameter counts as that parameter. Arguments that a
rule admits for their variables can therefore still have violations, and they have none if and only if
their constants are kept apart too (`Rule.ConstantsApart`).
-/

namespace Axiomata

/-! ## Reported pairs -/

namespace Distinct

/-- A group of two keeps its two members apart, and nothing else. -/
theorem apart_pair_iff {a b m n : String} :
    Apart [[a, b]] m n ↔ m = a ∧ n = b ∨ m = b ∧ n = a := by
  simp [Apart, exists_places_cons_iff, and_comm]

/-- A violation is a required pair, of a name with itself or of two parameters that are not declared
apart. -/
theorem mem_violations {required declared : Distinct} {params : List String} {p : String × String}
    (hp : p ∈ violations required declared params) :
    p ∈ required.pairs ∧
      (p.1 = p.2 ∨ p.1 ∈ params ∧ p.2 ∈ params ∧ p ∉ declared.pairs) := by
  obtain ⟨a, -, hp⟩ := List.mem_flatMap.mp hp
  rcases List.mem_append.mp hp with hself | hother
  · split at hself
    · rename_i ha
      obtain rfl := List.mem_singleton.mp hself
      exact ⟨mem_partners.mp (List.contains_iff_mem.mp ha), .inl rfl⟩
    · exact absurd hself List.not_mem_nil
  · split at hother
    · rename_i ha
      obtain ⟨b, hfind, rfl⟩ := Option.map_eq_some_iff.mp (Option.mem_toList.mp hother)
      have hb := List.find?_some hfind
      simp only [Bool.and_eq_true, bne_iff_ne, Bool.not_eq_true', List.contains_eq_mem,
        decide_eq_true_eq, decide_eq_false_iff_not] at hb
      refine ⟨mem_partners.mp (List.mem_of_find?_eq_some hfind), .inr ⟨?_, hb.1.2, ?_⟩⟩
      · exact List.contains_iff_mem.mp ha
      · exact fun hdeclared => hb.2 (mem_partners.mpr hdeclared)
    · exact absurd hother List.not_mem_nil

end Distinct

/-! ## Ends of arguments -/

namespace Rule

variable {r : Rule} {args : List Term}

/-- A term is the argument in the place of a parameter. -/
def Binds (r : Rule) (args : List Term) (name : String) (t : Term) : Prop :=
  ∃ i : Nat, r.paramNames[i]? = some name ∧ args[i]? = some t

/-- What a name in the conditions of a rule ends in: the leaves of its argument if it is a parameter,
and otherwise the name alone. -/
def EndsIn (r : Rule) (args : List Term) (name x : String) : Prop :=
  (∃ t, r.Binds args name t ∧ x ∈ t.leaves) ∨ name ∉ r.paramNames ∧ x = name

/-- If parameters have different names, each is bound to the argument in its place. -/
theorem get?_bindings_eq_some_iff (hnodup : r.paramNames.Nodup)
    (hlen : args.length = r.params.length) {name : String} {t : Term} :
    (r.bindings args).get? name = some t ↔ r.Binds args name t := by
  constructor
  · intro h
    have hmem := Subst.mem_of_get? h
    rw [bindings, Subst.ofList, List.mem_reverse] at hmem
    obtain ⟨i, hi⟩ := List.mem_iff_getElem?.mp hmem
    exact ⟨i, List.getElem?_zip_eq_some.mp hi⟩
  · rintro ⟨i, hname, ht⟩
    rw [paramNames, List.getElem?_map, Option.map_eq_some_iff] at hname
    obtain ⟨p, hp, rfl⟩ := hname
    obtain ⟨hi, rfl⟩ := List.getElem?_eq_some_iff.mp hp
    obtain ⟨-, rfl⟩ := List.getElem?_eq_some_iff.mp ht
    exact get?_bindings_getElem hnodup hlen hi

/-- What a parameter becomes ends in the leaves of the argument in its place. -/
theorem mem_leavesUnder_bindings_iff (hnodup : r.paramNames.Nodup)
    (hlen : args.length = r.params.length) {name x : String} :
    x ∈ Distinct.leavesUnder (r.bindings args) name ↔ r.EndsIn args name x := by
  rw [Distinct.leavesUnder]
  cases ht : (r.bindings args).get? name with
  | some t =>
    have hparam : name ∈ r.paramNames := (mem_args_of_get?_bindings ht).1
    constructor
    · exact fun hx => .inl ⟨t, (get?_bindings_eq_some_iff hnodup hlen).mp ht, hx⟩
    · rintro (⟨u, hu, hx⟩ | ⟨hfree, -⟩)
      · rw [← get?_bindings_eq_some_iff hnodup hlen, ht] at hu
        rwa [Option.some.inj hu]
      · exact absurd hparam hfree
  | none =>
    have hfree : name ∉ r.paramNames := by
      intro hparam
      obtain ⟨p, hp, rfl⟩ := List.mem_map.mp hparam
      have hsome := get?_bindings_isSome hlen hp
      rw [ht] at hsome
      cases hsome
    constructor
    · exact fun hx => .inr ⟨hfree, List.mem_singleton.mp hx⟩
    · rintro (⟨u, hu, -⟩ | ⟨-, rfl⟩)
      · rw [← get?_bindings_eq_some_iff hnodup hlen, ht] at hu
        cases hu
      · exact List.mem_singleton_self _

/-- Names at the ends of arguments that a rule asks to be apart. -/
def Requires (r : Rule) (args : List Term) (a b : String) : Prop :=
  ∃ m n, Distinct.Apart r.groups m n ∧ r.EndsIn args m a ∧ r.EndsIn args n b

/-- A step requires of its leaves what the rule requires of its parameters. -/
theorem contains_distinctOf_iff (hnodup : r.paramNames.Nodup)
    (hlen : args.length = r.params.length) {a b : String} :
    (r.distinctOf args).contains a b ↔ r.Requires args a b := by
  simp only [distinctOf, Distinct.contains_propagate_iff, mem_leavesUnder_bindings_iff hnodup hlen]
  rfl

end Rule

/-! ## Exactness -/

/-- Of a step that applies a rule of a compiled file to an argument for each parameter: it has no
violations if and only if the statement keeps apart all names at the ends of arguments that the rule
asks to be. Each violation is a pair of such names that the statement does not keep apart, the smaller
one first. -/
theorem violations_within_exact {deps : List Table}
    (hdeps : ∀ table ∈ deps, table.Compiled fun _ => True) {ds : List Decl} {x : Symbol}
    (hx : x ∈ ((Elaboration.start deps).run ds).scope.symbols) {rule : Rule}
    (hrule : x.rule? = some rule) (statement : Rule) {args : List Term}
    (hlen : args.length = rule.params.length) :
    let step := Step.within statement rule args
    (step.violations = [] ↔ ∀ a b, rule.Requires args a b → statement.KeepsApart a b) ∧
      ∀ p ∈ step.violations, p.1 ≤ p.2 ∧ rule.Requires args p.1 p.2 ∧
        ¬ statement.KeepsApart p.1 p.2 := by
  intro step
  obtain ⟨symbols, hsubset, hclosed⟩ :=
    (hereditary_typed fun _ => True).exists_closed_run hdeps (fun d (_ : d ∈ ds) => trivial)
  have hnodup : rule.paramNames.Nodup := ((hclosed x (hsubset hx)).wellFormed hrule).nodup
  have hrequires {a b : String} := rule.contains_distinctOf_iff hnodup hlen (a := a) (b := b)
  constructor
  · rw [Step.violations_within_eq_nil_iff_contains]
    simp only [hrequires]
  · intro p hp
    obtain ⟨hrequired, hbad⟩ := Distinct.mem_violations hp
    have hpair : Distinct.pair p.1 p.2 = p := Distinct.pair_of_mem_pairs hrequired
    refine ⟨?_, ?_, fun hkeeps => ?_⟩
    · rw [← hpair]
      exact Distinct.pair_le p.1 p.2
    · rw [← hrequires, Distinct.contains_iff, hpair]
      exact hrequired
    · rcases hbad with heq | ⟨ha, hb, hdeclared⟩
      · exact hkeeps.1 heq
      · exact hdeclared ((Distinct.mem_pairs_ofGroups_iff hpair).mpr (hkeeps.2 ha hb))

/-- A compound argument, one variable of which is not declared apart from the other argument. -/
theorem violations_within_exact_compound :
    let base := Source.ofText "base" ("type P term P imp(P a, P b) \x7b imp a b \x7d " ++
      "axiom gen(P x, P p) \x7b #diff x p |- p \x7d")
    let imp : Ctor := ⟨"imp", "P", [⟨"P", "a"⟩, ⟨"P", "b"⟩], [.text "imp", .arg 0, .arg 1]⟩
    let p (name : String) : Term := .var name "P"
    let args := [p "u", .app imp [p "v", p "w"]]
    let statement (groups : List (List String)) : Rule :=
      ⟨"t", ["u", "v", "w"].map (⟨"P", ·⟩), [p "w"], [], groups⟩
    ∃ x ∈ ((Elaboration.start []).run base.outline.decls).scope.symbols, ∃ rule,
      x.rule? = some rule ∧
      (Step.within (statement [["u", "v"]]) rule args).violations = [("u", "w")] ∧
      (rule.Requires args "u" "w" ∧ ¬ (statement [["u", "v"]]).KeepsApart "u" "w") ∧
      ∀ a b, rule.Requires args a b → (statement [["w", "u"], ["u", "v"]]).KeepsApart a b := by
  intro base imp p args statement
  obtain ⟨x, hx, hview⟩ : ∃ x ∈ ((Elaboration.start []).run base.outline.decls).scope.symbols,
      x.rule?.map (fun rule => (rule.params.length,
        [[["u", "v"]], [["w", "u"], ["u", "v"]]].map fun groups =>
          (Step.within (statement groups) rule args).violations)) =
      some (2, [[("u", "w")], []]) := by decide +kernel
  obtain ⟨rule, hrule, hview⟩ := Option.map_eq_some_iff.mp hview
  simp only [List.map_cons, List.map_nil, Prod.mk.injEq, List.cons.injEq, and_true] at hview
  obtain ⟨hlen, hone, hnone⟩ := hview
  have hargs : args.length = rule.params.length := hlen.symm
  have hexact (groups : List (List String)) :=
    violations_within_exact (by simp) hx hrule (statement groups) hargs
  refine ⟨x, hx, rule, hrule, hone, ?_, (hexact _).1.mp hnone⟩
  exact ((hexact _).2 ("u", "w") (by rw [hone]; exact List.mem_singleton_self _)).2

/-! ## Constants -/

/-- What is kept apart besides variables: the constants of an argument from all that is at the ends of
an argument that has to be apart from it. -/
def Rule.ConstantsApart (r goal : Rule) (args : List Term) : Prop :=
  ∀ a b, Distinct.Apart r.groups a b → ∀ s t, (r.bindings args).get? a = some s →
    (r.bindings args).get? b = some t → ∀ k ∈ s.fixedEnds, ∀ x ∈ t.ends, goal.KeepsApart k x

/-- For an admitted application of a rule, it is left to the constants whether there are violations.
-/
theorem Rule.Admits.violations_eq_nil_iff {symbols : List Symbol} {goal r : Rule} {args : List Term}
    (hbound : ∀ group ∈ r.groups, group ⊆ r.paramNames) (h : r.Admits symbols goal args) :
    (Step.within goal r args).violations = [] ↔ r.ConstantsApart goal args := by
  rw [Step.violations_within_eq_nil_iff]
  constructor
  · intro hkept a b hab s t hs ht k hk x hx
    exact hkept a b hab k ((Distinct.mem_leavesUnder_iff hs).mpr (s.fixedEnds_subset_ends hk))
      x ((Distinct.mem_leavesUnder_iff ht).mpr hx)
  · intro hconstants a b hab x hx y hy
    have hsome {name : String} (hname : name ∈ r.paramNames) :
        ∃ t, (r.bindings args).get? name = some t := by
      obtain ⟨p, hp, rfl⟩ := List.mem_map.mp hname
      exact Option.isSome_iff_exists.mp (get?_bindings_isSome h.fits.length_eq hp)
    obtain ⟨group, hg, ha, hb⟩ := hab.exists_group
    obtain ⟨s, hs⟩ := hsome (hbound group hg ha)
    obtain ⟨t, ht⟩ := hsome (hbound group hg hb)
    have hx' : x ∈ s.ends := (Distinct.mem_leavesUnder_iff hs).mp hx
    have hy' : y ∈ t.ends := (Distinct.mem_leavesUnder_iff ht).mp hy
    -- Two variables are kept apart by the conditions on the arguments, all else by those on constants.
    rcases Term.mem_ends_iff.mp hx' with hvar | hconst
    · rcases Term.mem_ends_iff.mp hy' with hvar' | hconst'
      · obtain ⟨hne, happart⟩ := h.apart a b hab s t hs ht x hvar y hvar'
        exact ⟨hne, fun _ _ => happart⟩
      · exact (hconstants b a hab.symm t s ht hs y hconst' x hx').symm
    · exact hconstants a b hab s t hs ht x hconst y hy'

/-- A step with an argument of the right type for each parameter, whose variables are kept apart as its
rule asks: that names are not distinct is not reported if and only if its constants are kept apart
too. -/
theorem notDistinct_iff_of_admits {s : Scope} {statement rule : Rule} {root : Token} {es : List Expr}
    {ts : List Term} (hrule : s.rule? root.text = some rule)
    (hbound : ∀ group ∈ rule.groups, group ⊆ rule.paramNames)
    (hes : es.map (fun e => (e.instantiate s statement.params).1) = ts.map some)
    (hadmits : rule.Admits s.symbols statement ts) :
    (∀ d ∈ ((Expr.node root es).toStep s statement).2, d.fault ≠ .notDistinct) ↔
      rule.ConstantsApart statement ts := by
  rw [← hadmits.violations_eq_nil_iff hbound, Expr.toStep_of_types hrule hes hadmits.fits.types]
  constructor
  · intro h
    refine List.eq_nil_iff_forall_not_mem.mpr fun p hp => ?_
    exact h _ (List.mem_map_of_mem hp) rfl
  · intro h d hd
    rw [h] at hd
    cases hd

/-- A constant that is shown like no parameter is not in the way. -/
theorem notDistinct_iff_of_admits_other_text :
    let base := Source.ofText "base"
      "type P term P zero() \x7b 0 \x7d axiom ax(P a, P b) \x7b #diff a b |- a \x7d"
    let word (text : String) : Token := ⟨.word, text, ⟨0, 0⟩⟩
    let name (text : String) : Expr := .node (word text) []
    let s : Scope := { deps := [(base.compile []).table] }
    let statement : Rule := ⟨"t", [⟨"P", "x"⟩], [.var "x" "P"], [], []⟩
    ∃ rule ts, s.rule? "ax" = some rule ∧ ts.flatMap Term.ends = ["x", "0"] ∧
      rule.Admits s.symbols statement ts ∧ rule.ConstantsApart statement ts ∧
      ((Expr.node (word "ax") [name "x", name "zero"]).toStep s statement).2 = [] := by
  intro base word name s statement
  have hview : (s.rule? "ax").any (fun rule =>
      (Expr.instantiateEach s statement.params [name "x", name "zero"]).1.any fun ts =>
        decide ((∀ group ∈ rule.groups, group ⊆ rule.paramNames) ∧
          ts.map Term.type = rule.params.map Param.type ∧ ts.flatMap Term.ends = ["x", "0"] ∧
          (Step.within statement rule ts).violations = [])) = true := by decide +kernel
  simp only [Option.any_eq_true, decide_eq_true_eq] at hview
  obtain ⟨rule, hrule, ts, hts, hbound, htypes, hends, hnone⟩ := hview
  have hes := Expr.instantiateEach_eq_some_iff.mp hts
  have hfits : rule.Fits s.symbols statement.params [] ts :=
    ⟨htypes, Expr.typed_instantiateEach hts⟩
  have hadmits := Rule.Admits.of_violations hfits hnone
  have hclean : ((Expr.node (word "ax") [name "x", name "zero"]).toStep s statement).2 = [] := by
    rw [Expr.toStep_of_types hrule hes hfits.types, hnone, List.map_nil]
  refine ⟨rule, ts, hrule, hends, hadmits, ?_, hclean⟩
  have hrule' : s.rule? (word "ax").text = some rule := hrule
  refine (notDistinct_iff_of_admits hrule' hbound hes hadmits).mp fun d hd => ?_
  rw [hclean] at hd
  cases hd

/-- Constants get in the way of arguments that a rule admits: a constant on both sides, a variable and a
constant that is shown like it, and a variable and a constant that is shown like another parameter. -/
theorem constant_not_distinct :
    let base (text : String) := Source.ofText "base" ("type P term P zero() \x7b " ++ text ++
      " \x7d axiom ax(P a, P b) \x7b #diff a b |- a \x7d")
    let word (text : String) : Token := ⟨.word, text, ⟨0, 0⟩⟩
    let name (text : String) : Expr := .node (word text) []
    let refused (text : String) (params : List String) (arg : String) : Prop :=
      let s : Scope := { deps := [((base text).compile []).table] }
      let st : Statement :=
        ⟨word "t", params.map fun p => ⟨word "P", word p⟩, { conclusions := [name arg] }⟩
      ∃ statement rule ts, (st.elaborate s).1 = some statement ∧ s.rule? "ax" = some rule ∧
        (∀ group ∈ rule.groups, group ⊆ rule.paramNames) ∧
        (Expr.instantiateEach s statement.params [name arg, name "zero"]).1 = some ts ∧
        rule.Admits s.symbols statement ts ∧
        ((Expr.node (word "ax") [name arg, name "zero"]).toStep s statement).2.map
          Diagnostic.fault = [.notDistinct]
    refused "0" [] "zero" ∧ refused "x" ["x"] "x" ∧ refused "x" ["x", "y"] "y" := by
  intro base word name refused
  -- Where the second argument has no variables there are none to be kept apart.
  have hrefused (text : String) (params : List String) (arg : String)
      (h : let s : Scope := { deps := [((base text).compile []).table] }
        let st : Statement :=
          ⟨word "t", params.map fun p => ⟨word "P", word p⟩, { conclusions := [name arg] }⟩
        (st.elaborate s).1.any fun statement => (s.rule? "ax").any fun rule =>
          (Expr.instantiateEach s statement.params [name arg, name "zero"]).1.any fun ts =>
            decide (rule.groups = [["a", "b"]] ∧
              (∀ group ∈ rule.groups, group ⊆ rule.paramNames) ∧
              ts.map Term.type = rule.params.map Param.type ∧
              ((rule.bindings ts).get? "b").map Term.vars = some [] ∧
              ((Expr.node (word "ax") [name arg, name "zero"]).toStep s statement).2.map
                Diagnostic.fault = [.notDistinct])) :
      refused text params arg := by
    simp only [Option.any_eq_true, decide_eq_true_eq] at h
    obtain ⟨statement, hstatement, rule, hrule, ts, hts, hgroups, hbound, htypes, hvars,
      hfaults⟩ := h
    have hclosed {t : Term} {x : String} (ht : (rule.bindings ts).get? "b" = some t) :
        x ∉ t.vars := by
      rw [ht, Option.map_some, Option.some.injEq] at hvars
      rw [hvars]
      exact List.not_mem_nil
    refine ⟨statement, rule, ts, hstatement, hrule, hbound, hts,
      ⟨⟨htypes, Expr.typed_instantiateEach hts⟩, ?_⟩, hfaults⟩
    intro a b hab u v hu hv x hx y hy
    rw [hgroups, Distinct.apart_pair_iff] at hab
    rcases hab with ⟨-, rfl⟩ | ⟨rfl, -⟩
    · exact absurd hy (hclosed hv)
    · exact absurd hx (hclosed hu)
  refine ⟨hrefused _ _ _ ?_, hrefused _ _ _ ?_, hrefused _ _ _ ?_⟩
  all_goals decide +kernel

end Axiomata
