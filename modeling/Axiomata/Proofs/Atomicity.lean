import Axiomata.Proofs.Lookup
import Axiomata.Proofs.Typing

/-!
# Declarations, all or nothing

A declaration with a name of its own adds its symbol or reports why not, and never does half of it.
There are many places to stop at, and what they have in common is that an expression fails exactly
where it reports a fault (`Expr.isSome_instantiate_iff`), so that a statement is elaborated exactly
where nothing is reported (`Statement.isSome_elaborate_iff`). Once it is elaborated its name has been
found free, and adding the symbol cannot fail any more (`Scope.register_of_free`).
-/

namespace Axiomata

/-! ## Names of a declaration -/

namespace Expr

mutual

/-- The names in an expression, from left to right. -/
def words : Expr → List Token
  | .node root args => root :: wordsAll args

def wordsAll : List Expr → List Token
  | [] => []
  | e :: es => e.words ++ wordsAll es

end

theorem wordsAll_eq_flatMap (es : List Expr) : wordsAll es = es.flatMap words := by
  induction es with
  | nil => rfl
  | cons e es ih => simp [wordsAll, ih]

@[simp] theorem words_node (root : Token) (args : List Expr) :
    (node root args).words = root :: args.flatMap words := by
  rw [words, wordsAll_eq_flatMap]

/-- The name in front of an expression is one of its words. -/
theorem root_mem_words (e : Expr) : e.root ∈ e.words := by
  cases e with
  | node root args => simp

end Expr

/-- The names in a statement, in the order in which they are elaborated. -/
def Statement.words (s : Statement) : List Token :=
  s.name :: s.params.flatMap (fun p => [p.type, p.name]) ++
    s.clauses.conclusions.flatMap Expr.words ++ s.clauses.hypotheses.flatMap Expr.words

namespace Decl

/-- The names that a declaration is made of, where it can go wrong. -/
def words : Decl → List Token
  | .types names => names
  | .term type name params _ => type :: name :: params.flatMap fun p => [p.type, p.name]
  | .postulate s => s.words
  | .thm s proof => s.words ++ proof.flatMap Expr.words

/-- The names that a declaration declares. -/
def names : Decl → List String
  | .types names => names.map Token.text
  | .term _ name _ _ => [name.text]
  | .postulate s | .thm s _ => [s.name.text]

end Decl

/-- A fault at one of the given names, other than that a theorem is unproved. -/
structure Diagnostic.Within (words : List Token) (d : Diagnostic) : Prop where
  token : d.token ∈ words
  fault : d.fault ≠ .unproved

/-- A fault among some tokens is among more tokens. -/
theorem Diagnostic.Within.mono {as bs : List Token} (h : as ⊆ bs) {d : Diagnostic}
    (hd : d.Within as) : d.Within bs :=
  ⟨h hd.token, hd.fault⟩

/-! ## Expressions -/

namespace Expr

variable {scope : Scope} {params : List Param}

/-- Instantiating an expression finds faults at its words only. -/
theorem within_instantiate {e : Expr} :
    ∀ d ∈ (instantiate scope params e).2, d.Within e.words := by
  induction e with
  | node root args ih =>
    have hroot (fault : Fault) (hfault : fault ≠ .unproved) :
        ∀ d ∈ [(⟨fault, root⟩ : Diagnostic)], d.Within (node root args).words :=
      List.forall_mem_singleton.mpr ⟨root_mem_words _, hfault⟩
    have hargs : ∀ d ∈ (instantiateAll scope params args).2, d.Within (node root args).words := by
      rw [instantiateAll_snd]
      intro d hd
      obtain ⟨e, he, hd⟩ := List.mem_flatMap.mp hd
      refine (ih e he d hd).mono fun t ht => ?_
      rw [words_node]
      exact List.mem_cons_of_mem root (List.mem_flatMap.mpr ⟨e, he, ht⟩)
    rw [instantiate]
    split
    · split
      · simp
      · exact hroot .tooManyArgs (by decide)
    · split
      · exact hroot .unknownTerm (by decide)
      split
      · exact hroot .tooManyArgs (by decide)
      split
      · exact hroot .tooFewArgs (by decide)
      simp only
      split
      · exact hargs
      · exact List.forall_mem_append.mpr ⟨hargs, hroot .argType (by decide)⟩

/-- Instantiating expressions finds faults at their words only. -/
theorem within_instantiateEach {es : List Expr} :
    ∀ d ∈ (instantiateEach scope params es).2, d.Within (es.flatMap words) := by
  induction es with
  | nil => simp [instantiateEach]
  | cons e es ih =>
    have hfirst : ∀ d ∈ (instantiate scope params e).2, d.Within ((e :: es).flatMap words) :=
      fun d hd => (within_instantiate d hd).mono (by simp)
    rw [instantiateEach]
    split
    · rename_i hnone
      rwa [hnone] at hfirst
    · rename_i hsome
      rw [hsome] at hfirst
      exact List.forall_mem_append.mpr ⟨hfirst, fun d hd => (ih d hd).mono (by simp)⟩

/-- Expressions stand for terms exactly if no fault is found in them. -/
theorem isSome_instantiateEach_iff (scope : Scope) (params : List Param) (es : List Expr) :
    (instantiateEach scope params es).1.isSome ↔ (instantiateEach scope params es).2 = [] := by
  induction es with
  | nil => simp [instantiateEach]
  | cons e es ih =>
    have hfirst := isSome_instantiate_iff scope params e
    rw [instantiateEach]
    split
    · rename_i hnone
      rwa [hnone] at hfirst
    · rename_i hsome
      rw [hsome] at hfirst
      simp [← hfirst, ih]

end Expr

/-! ## Headers and statements -/

namespace Scope

variable {s : Scope}

theorem within_badType {t : Token} : ∀ d ∈ s.badType? t, d.Within [t] := by
  intro d hd
  obtain ⟨fault, hfault, rfl⟩ := Option.map_eq_some_iff.mp hd
  refine ⟨List.mem_singleton_self t, ?_⟩
  rintro rfl
  simp only [typeFault?] at hfault
  split at hfault
  · cases hfault
  · split at hfault <;> cases hfault

/-- A name that cannot be declared is at fault itself. -/
theorem within_nameFault {name : String} {fault : Fault} (h : s.nameFault? name = some fault)
    (t : Token) : Diagnostic.Within [t] ⟨fault, t⟩ := by
  refine ⟨List.mem_singleton_self t, ?_⟩
  rintro rfl
  simp only [nameFault?] at h
  split at h
  · cases h
  · split at h <;> cases h

theorem within_badName {t : Token} : ∀ d ∈ s.badName? t, d.Within [t] := by
  intro d hd
  obtain ⟨fault, hfault, rfl⟩ := Option.map_eq_some_iff.mp hd
  exact within_nameFault hfault t

/-- Parameters are at fault at their types and names. -/
theorem within_badParam {seen : List String} {ps : List ParamDecl} :
    ∀ d ∈ s.badParam? seen ps, d.Within (ps.flatMap fun p => [p.type, p.name]) := by
  induction ps generalizing seen with
  | nil => simp [badParam?]
  | cons p ps ih =>
    intro d hd
    rw [badParam?, Option.mem_def, Option.or_eq_some_iff, Option.or_eq_some_iff] at hd
    rcases hd with hd | ⟨-, hd | ⟨-, hd⟩⟩
    · exact (within_badType d hd).mono (by simp)
    · exact (within_badName d hd).mono (by simp)
    · split at hd
      · cases hd
        exact ⟨by simp, Fault.noConfusion⟩
      · exact (ih d hd).mono (by simp)

/-- A symbol with a free name is added. -/
theorem register_of_free (t : Token) {x : Symbol} (h : s.nameFault? x.name = none) :
    s.register t x = { symbols := [x] } := by
  rw [register_eq, h]

/-- A name that can be declared is declared. -/
theorem declare_of_free {x : Symbol} (h : s.nameFault? x.name = none) :
    s.declare x = .ok (s.append [x]) := by
  rw [declare, h]
  rfl

/-- A name that is not reported can be declared. -/
theorem nameFault?_eq_none_of_badName {t : Token} (h : s.badName? t = none) :
    s.nameFault? t.text = none :=
  Option.map_eq_none_iff.mp h

end Scope

namespace Statement

variable {s : Scope} {st : Statement}

/-- The faults of a statement are those of its name, its parameters, its conclusions and its
hypotheses. -/
theorem mem_elaborate_snd {d : Diagnostic} (h : d ∈ (st.elaborate s).2) :
    d ∈ s.badName? st.name ∨ d ∈ s.badParam? [] st.params ∨
      d ∈ (Expr.instantiateEach s (st.params.map ParamDecl.toParam) st.clauses.conclusions).2 ∨
      d ∈ (Expr.instantiateEach s (st.params.map ParamDecl.toParam) st.clauses.hypotheses).2 := by
  simp only [elaborate] at h
  split at h
  · rename_i bad hbad
    obtain rfl := List.mem_singleton.mp h
    rcases Option.or_eq_some_iff.mp hbad with hname | ⟨-, hparam⟩
    · exact .inl hname
    · exact .inr (.inl hparam)
  · split at h
    · rename_i hconclusions
      rw [hconclusions]
      exact .inr (.inr (.inl h))
    · rename_i hconclusions
      rw [hconclusions]
      split at h <;> rename_i hhypotheses <;> rw [hhypotheses] <;>
        exact .inr (.inr (List.mem_append.mp h))

/-- A statement has faults at its own words only. -/
theorem within_elaborate : ∀ d ∈ (st.elaborate s).2, d.Within st.words := by
  intro d hd
  rcases mem_elaborate_snd hd with hd | hd | hd | hd
  · exact (Scope.within_badName d hd).mono (by simp [words])
  · refine (Scope.within_badParam d hd).mono fun t ht => ?_
    simp [words, ht]
  · refine (Expr.within_instantiateEach d hd).mono fun t ht => ?_
    simp [words, ht]
  · refine (Expr.within_instantiateEach d hd).mono fun t ht => ?_
    simp [words, ht]

/-- A statement fails if and only if it reports a fault. -/
theorem isSome_elaborate_iff (s : Scope) (st : Statement) :
    (st.elaborate s).1.isSome ↔ (st.elaborate s).2 = [] := by
  rw [elaborate]
  split
  · simp
  · have hall := Expr.isSome_instantiateEach_iff s (st.params.map ParamDecl.toParam)
    have hconclusions := hall st.clauses.conclusions
    have hhypotheses := hall st.clauses.hypotheses
    simp only
    split
    · rename_i hnone
      rwa [hnone] at hconclusions
    · rename_i hsome
      rw [hsome] at hconclusions
      split
      · rename_i hnone
        rw [hnone] at hhypotheses
        simpa using fun _ => hhypotheses
      · rename_i hsome'
        rw [hsome'] at hhypotheses
        simp [← hconclusions, ← hhypotheses]

/-- A statement gives a rule only if the name of the rule can be declared. -/
theorem free_of_elaborate {r : Rule} (h : (st.elaborate s).1 = some r) :
    s.nameFault? r.name = none := by
  obtain ⟨hbad, -, hname, -⟩ := elaborate_eq_some_iff.mp h
  rw [hname]
  exact Scope.nameFault?_eq_none_of_badName hbad

/-- What is left of an elaborated statement is its rule, and of any other one its faults. -/
theorem elaborate_cases (s : Scope) (st : Statement) :
    (∃ r, st.elaborate s = (some r, []) ∧ r.name = st.name.text ∧ s.nameFault? r.name = none) ∨
      ∃ faults, st.elaborate s = (none, faults) ∧ faults ≠ [] := by
  have hiff := isSome_elaborate_iff s st
  rcases hst : st.elaborate s with ⟨rule, faults⟩
  rw [hst] at hiff
  cases rule with
  | some r =>
    obtain rfl : faults = [] := hiff.mp rfl
    have hr : (st.elaborate s).1 = some r := by rw [hst]
    exact .inl ⟨r, rfl, (elaborate_eq_some hr).2.1, free_of_elaborate hr⟩
  | none => exact .inr ⟨faults, rfl, fun h => by simpa using hiff.mpr h⟩

end Statement

/-! ## Proofs -/

/-- Too many or too few arguments are reported at the name of the rule. -/
theorem Rule.within_countFault {r : Rule} {root : Token} {es : List Expr} :
    ∀ d ∈ r.countFault root es, d.Within [root] := by
  intro d hd
  rw [countFault] at hd
  split at hd
  · obtain rfl := List.mem_singleton.mp hd
    exact ⟨List.mem_singleton_self root, Fault.noConfusion⟩
  split at hd
  · obtain rfl := List.mem_singleton.mp hd
    exact ⟨List.mem_singleton_self root, Fault.noConfusion⟩
  · cases hd

/-- Arguments of the wrong type are reported at the arguments. -/
theorem Rule.within_misfits {r : Rule} {es : List Expr} {terms : List (Option Term)} :
    ∀ d ∈ r.misfits es terms, d.Within (es.flatMap Expr.words) := by
  intro d hd
  obtain ⟨⟨p, e, t⟩, hmem, hd⟩ := List.mem_filterMap.mp hd
  obtain ⟨-, heq⟩ := Option.ite_none_right_eq_some.mp hd
  cases heq
  have he : e ∈ es := (List.of_mem_zip (List.of_mem_zip hmem).2).1
  exact ⟨List.mem_flatMap.mpr ⟨e, he, e.root_mem_words⟩, Fault.noConfusion⟩

/-- A step has faults at its own words only. -/
theorem Expr.within_toStep {scope : Scope} {statement : Rule} {e : Expr} :
    ∀ d ∈ (e.toStep scope statement).2, d.Within e.words := by
  cases e with
  | node root args =>
    have hroot : [root] ⊆ (node root args).words := by simp
    have hargs : args.flatMap words ⊆ (node root args).words := by simp
    intro d hd
    rw [toStep] at hd
    split at hd
    · obtain rfl := List.mem_singleton.mp hd
      exact ⟨root_mem_words _, Fault.noConfusion⟩
    · simp only [List.mem_append, or_assoc] at hd
      rcases hd with hd | hd | hd | hd
      · exact (Rule.within_countFault d hd).mono hroot
      · rw [instantiateAll_snd] at hd
        obtain ⟨e, he, hd⟩ := List.mem_flatMap.mp hd
        exact (within_instantiate d hd).mono fun t ht => hargs (List.mem_flatMap.mpr ⟨e, he, ht⟩)
      · exact (Rule.within_misfits d hd).mono hargs
      · obtain ⟨-, -, rfl⟩ := List.mem_map.mp hd
        exact ⟨root_mem_words _, Fault.noConfusion⟩

/-- The steps of a proof have faults at the words of the proof only. -/
theorem Rule.within_stepFaults {statement : Rule} {scope : Scope} {proof : List Expr} :
    ∀ d ∈ statement.stepFaults scope proof, d.Within (proof.flatMap Expr.words) := by
  intro d hd
  obtain ⟨e, he, hd⟩ := List.mem_flatMap.mp hd
  exact (Expr.within_toStep d hd).mono fun t ht => List.mem_flatMap.mpr ⟨e, he, ht⟩

/-- A replay finds faults at the cited names only. -/
theorem Snapshot.within_faults {callees : List Token} {snapshots : List Snapshot} :
    ∀ d ∈ Snapshot.faults callees snapshots, d.Within callees := by
  intro d hd
  obtain ⟨⟨t, snapshot⟩, hmem, hd⟩ := List.mem_filterMap.mp hd
  obtain ⟨-, heq⟩ := Option.ite_none_right_eq_some.mp hd
  cases heq
  exact ⟨(List.of_mem_zip hmem).1, Fault.noConfusion⟩

/-- The names that a proof cites are words of the proof. -/
theorem Rule.callees_subset {statement : Rule} {scope : Scope} {proof : List Expr} :
    (statement.citedSteps scope proof).map Prod.fst ⊆ proof.flatMap Expr.words := by
  intro t ht
  obtain ⟨⟨_, step⟩, hcited, rfl⟩ := List.mem_map.mp ht
  obtain ⟨e, he, hsome⟩ := List.mem_filterMap.mp hcited
  obtain ⟨_, -, heq⟩ := Option.map_eq_some_iff.mp hsome
  cases heq
  exact List.mem_flatMap.mpr ⟨e, he, e.root_mem_words⟩

/-! ## Declarations -/

/-- The symbol of a declaration is added under the given name, which nothing prevents. -/
structure Outcome.Inserts (s : Scope) (name : Token) (x : Symbol) (o : Outcome) : Prop where
  name_eq : x.name = name.text
  declared : s.declare x = .ok (s.append [x])
  symbols_eq : o.symbols = [x]

/-- Nothing is added, and it is reported why. -/
structure Outcome.Refuses (o : Outcome) : Prop where
  symbols_eq : o.symbols = []
  faults_ne : o.faults ≠ []

/-- What comes of a declaration in a scope. Types are added or reported one by one. Any other
declaration adds its symbol if all checks pass, and reports a fault otherwise. A theorem that is
added is reported last if its proof is not valid, and for this reason only. -/
def Decl.Settled (s : Scope) (o : Outcome) : Decl → Prop
  | .types names =>
    o.symbols.length + o.faults.length = names.length ∧
      ∃ added : List Token, added.Sublist names ∧ o.symbols = added.map (.type ·.text)
  | .term type name params _ =>
    match (s.badType? type).or ((s.badName? name).or (s.badParam? [] params)) with
    | none =>
      (∃ c : Ctor, c.type = type.text ∧ c.params = params.map ParamDecl.toParam ∧
        o.Inserts s name (.ctor c)) ∧ o.faults = []
    | some _ => o.Refuses
  | .postulate st =>
    match (st.elaborate s).1 with
    | some r => o.Inserts s st.name (.postulate r) ∧ o.faults = []
    | none => o.Refuses
  | .thm st proof =>
    match (st.elaborate s).1 with
    | some r =>
      let t : Theorem := ⟨r, (r.citedSteps s proof).map Prod.snd⟩
      o.Inserts s st.name (.thm t) ∧ ∃ earlier : List Diagnostic,
        o.faults = earlier ++ (if t.valid then [] else [⟨.unproved, st.name⟩]) ∧
        ∀ d ∈ earlier, d.fault ≠ .unproved
    | none => o.Refuses

namespace Scope

variable (s : Scope)

/-- A symbol whose name can be declared is added as the only one. -/
theorem register_inserts {t : Token} {x : Symbol} (hname : x.name = t.text)
    (h : s.nameFault? x.name = none) : (s.register t x).Inserts s t x :=
  ⟨hname, declare_of_free h, by rw [register_of_free t h]⟩

/-- One name is added or reported. -/
theorem register_cases (t : Token) (x : Symbol) :
    (s.register t x).symbols = [x] ∧ (s.register t x).faults = [] ∨
      (s.register t x).symbols = [] ∧ ∃ d, (s.register t x).faults = [d] ∧ d.Within [t] := by
  rw [register_eq]
  cases hfault : s.nameFault? x.name with
  | none => exact .inl ⟨rfl, rfl⟩
  | some fault => exact .inr ⟨rfl, _, rfl, within_nameFault hfault t⟩

/-- Each name of a declaration of types adds a type or is reported. -/
theorem settled_declareTypes (names : List Token) :
    (Decl.types names).Settled s (s.declareTypes names) := by
  induction names generalizing s with
  | nil => exact ⟨rfl, [], .slnil, rfl⟩
  | cons t ts ih =>
    obtain ⟨hcount, added, hsub, hadded⟩ := ih (s.append (s.register t (.type t.text)).symbols)
    simp only [Decl.Settled, declareTypes_cons, Outcome.symbols_append, Outcome.faults_append,
      List.length_append, List.length_cons, ← hcount, hadded]
    rcases s.register_cases t (.type t.text) with ⟨hsymbols, hfaults⟩ | ⟨hsymbols, d, hfaults, -⟩
    · refine ⟨?_, t :: added, hsub.cons_cons t, by rw [hsymbols]; rfl⟩
      rw [hsymbols, hfaults, List.length_singleton, List.length_nil]
      omega
    · refine ⟨?_, added, hsub.cons t, by rw [hsymbols]; rfl⟩
      rw [hsymbols, hfaults, List.length_singleton, List.length_nil]
      omega

/-- Types are reported at their names. -/
theorem within_declareTypes (names : List Token) :
    ∀ d ∈ (s.declareTypes names).faults, d.Within names := by
  induction names generalizing s with
  | nil => simp [declareTypes]
  | cons t ts ih =>
    rw [declareTypes_cons, Outcome.faults_append, List.forall_mem_append]
    refine ⟨fun d hd => ?_, fun d hd => (ih _ d hd).mono (List.subset_cons_self t ts)⟩
    rcases s.register_cases t (.type t.text) with ⟨-, hfaults⟩ | ⟨-, d', hfaults, hwithin⟩
    · rw [hfaults] at hd
      cases hd
    · rw [hfaults] at hd
      rw [List.mem_singleton.mp hd]
      exact hwithin.mono (by simp)

/-- A constructor is added or reported, not both. -/
theorem settled_declareTerm (type name : Token) (params : List ParamDecl) (body : List Token) :
    (Decl.term type name params body).Settled s (s.declareTerm type name params body) := by
  simp only [Decl.Settled, declareTerm]
  cases hbad : (s.badType? type).or ((s.badName? name).or (s.badParam? [] params)) with
  | some d => exact ⟨rfl, List.cons_ne_nil d []⟩
  | none =>
    rw [Option.or_eq_none_iff, Option.or_eq_none_iff] at hbad
    have hfree := nameFault?_eq_none_of_badName hbad.2.1
    exact ⟨⟨_, rfl, rfl, s.register_inserts rfl hfree⟩, by rw [register_of_free name hfree]⟩

/-- A postulate without faults is added. -/
theorem declarePostulate_of_some {st : Statement} {r : Rule} (hr : st.elaborate s = (some r, []))
    (hfree : s.nameFault? r.name = none) : s.declarePostulate st = { symbols := [.postulate r] } := by
  rw [declarePostulate, hr]
  simp only
  rw [register_of_free st.name hfree]
  rfl

/-- A postulate is added or reported, not both. -/
theorem settled_declarePostulate (st : Statement) :
    (Decl.postulate st).Settled s (s.declarePostulate st) := by
  rw [Decl.Settled]
  rcases st.elaborate_cases s with ⟨r, hr, hname, hfree⟩ | ⟨faults, hnone, hne⟩
  · rw [s.declarePostulate_of_some hr hfree, hr]
    exact ⟨⟨hname, declare_of_free hfree, rfl⟩, rfl⟩
  · rw [declarePostulate, hnone]
    exact ⟨rfl, hne⟩

/-- A theorem whose statement is without faults is added, whatever is wrong with its proof. -/
theorem declareThm_of_some {st : Statement} {r : Rule} (hr : st.elaborate s = (some r, []))
    (hfree : s.nameFault? r.name = none) (proof : List Expr) :
    let cited := r.citedSteps s proof
    let t : Theorem := ⟨r, cited.map Prod.snd⟩
    (s.declareThm st proof).symbols = [.thm t] ∧
      (s.declareThm st proof).faults =
        r.stepFaults s proof ++ Snapshot.faults (cited.map Prod.fst) t.snapshots ++
          if t.valid then [] else [⟨.unproved, st.name⟩] := by
  intro cited t
  have hthm : s.nameFault? (Symbol.thm t).name = none := hfree
  rw [declareThm, hr]
  simp only
  rw [register_of_free st.name hthm]
  simp [cited, t]

/-- All faults of a proof are at its words. -/
theorem within_proof (r : Rule) (proof : List Expr) (snapshots : List Snapshot) :
    ∀ d ∈ r.stepFaults s proof ++ Snapshot.faults ((r.citedSteps s proof).map Prod.fst) snapshots,
      d.Within (proof.flatMap Expr.words) :=
  List.forall_mem_append.mpr ⟨Rule.within_stepFaults,
    fun d hd => (Snapshot.within_faults d hd).mono Rule.callees_subset⟩

/-- A theorem is added unless its statement is at fault. -/
theorem settled_declareThm (st : Statement) (proof : List Expr) :
    (Decl.thm st proof).Settled s (s.declareThm st proof) := by
  rw [Decl.Settled]
  rcases st.elaborate_cases s with ⟨r, hr, hname, hfree⟩ | ⟨faults, hnone, hne⟩
  · obtain ⟨hsymbols, hfaults⟩ := s.declareThm_of_some hr hfree proof
    rw [hr]
    exact ⟨⟨hname, declare_of_free hfree, hsymbols⟩, _, hfaults,
      fun d hd => (s.within_proof r proof _ d hd).fault⟩
  · rw [declareThm, hnone]
    exact ⟨rfl, hne⟩

/-- Whatever a declaration is, it is settled. -/
theorem settled_elaborate (d : Decl) : d.Settled s (s.elaborate d) := by
  cases d with
  | types names => exact s.settled_declareTypes names
  | term type name params body => exact s.settled_declareTerm type name params body
  | postulate st => exact s.settled_declarePostulate st
  | thm st proof => exact s.settled_declareThm st proof

/-- Faults are reported at the names of the declaration. -/
theorem token_mem_words (d : Decl) : ∀ f ∈ (s.elaborate d).faults, f.token ∈ d.words := by
  cases d with
  | types names => exact fun f hf => (s.within_declareTypes names f hf).token
  | term type name params body =>
    simp only [elaborate, declareTerm]
    split
    · rename_i bad hbad
      rw [faults_report, List.forall_mem_singleton]
      rw [Option.or_eq_some_iff, Option.or_eq_some_iff] at hbad
      rcases hbad with hbad | ⟨-, hbad | ⟨-, hbad⟩⟩
      · exact ((within_badType bad hbad).mono (by simp [Decl.words])).token
      · exact ((within_badName bad hbad).mono (by simp [Decl.words])).token
      · exact ((within_badParam bad hbad).mono (by simp [Decl.words])).token
    · rename_i hbad
      rw [Option.or_eq_none_iff, Option.or_eq_none_iff] at hbad
      have hfree := nameFault?_eq_none_of_badName hbad.2.1
      rw [register_of_free name hfree]
      simp
  | postulate st =>
    rcases st.elaborate_cases s with ⟨r, hr, -, hfree⟩ | ⟨faults, hnone, -⟩
    · rw [elaborate, s.declarePostulate_of_some hr hfree]
      simp
    · rw [elaborate, declarePostulate, hnone]
      intro f hf
      exact (Statement.within_elaborate f (by rw [hnone]; exact hf)).token
  | thm st proof =>
    rcases st.elaborate_cases s with ⟨r, hr, -, hfree⟩ | ⟨faults, hnone, -⟩
    · rw [elaborate, (s.declareThm_of_some hr hfree proof).2, List.forall_mem_append]
      refine ⟨fun f hf => List.mem_append_right _ (s.within_proof r proof _ f hf).token, ?_⟩
      split
      · simp
      · simp [Decl.words, Statement.words]
    · rw [elaborate, declareThm, hnone]
      intro f hf
      exact List.mem_append_left _ (Statement.within_elaborate f (by rw [hnone]; exact hf)).token

end Scope

/-- A declaration without faults adds all of its names. -/
theorem Decl.Settled.names_eq {s : Scope} {o : Outcome} {d : Decl} (h : d.Settled s o)
    (hfaults : o.faults = []) : o.symbols.map Symbol.name = d.names := by
  cases d with
  | types names =>
    obtain ⟨hcount, added, hsub, hadded⟩ := h
    rw [hfaults, hadded, List.length_map, List.length_nil] at hcount
    rw [hadded, hsub.eq_of_length hcount, List.map_map]
    rfl
  | term type name params body =>
    simp only [Settled] at h
    split at h
    · obtain ⟨⟨c, -, -, hc⟩, -⟩ := h
      simp [hc.symbols_eq, names, hc.name_eq]
    · exact absurd hfaults h.faults_ne
  | postulate st =>
    simp only [Settled] at h
    split at h
    · simp [h.1.symbols_eq, names, h.1.name_eq]
    · exact absurd hfaults h.faults_ne
  | thm st proof =>
    simp only [Settled] at h
    split at h
    · simp [h.1.symbols_eq, names, h.1.name_eq]
    · exact absurd hfaults h.faults_ne

namespace Elaboration

/-- Declarations without faults add all of their names, in their order. -/
theorem names_run {e : Elaboration} {ds : List Decl} (h : (e.run ds).faults = []) :
    (e.run ds).scope.table.names = e.scope.table.names ++ ds.flatMap Decl.names := by
  induction ds generalizing e with
  | nil => simp
  | cons d ds ih =>
    have hdeclare : e.faults ++ (e.scope.elaborate d).faults = [] :=
      List.prefix_nil.mp (h ▸ (e.declare d).faults_prefix_run ds)
    have hnames := (e.scope.settled_elaborate d).names_eq (List.append_eq_nil_iff.mp hdeclare).2
    rw [run_cons, ih h, List.flatMap_cons, ← hnames]
    simp [declare, Scope.append, Table.names]

/-- After any declarations, a further one settles: names of types are added or reported one by one,
any other declaration adds its own symbol or reports why it does not, and a theorem whose proof is
not valid is reported last. Faults are reported at names of the declaration. So the table of a file
without faults lists the names that the file declares, in their order. -/
theorem settled_declare (deps : List Table) :
    (∀ (before : List Decl) (d : Decl),
      let e := (start deps).run before
      ∃ o : Outcome, (e.declare d).scope = e.scope.append o.symbols ∧
        (e.declare d).faults = e.faults ++ o.faults ∧ d.Settled e.scope o ∧
        ∀ f ∈ o.faults, f.token ∈ d.words) ∧
    ∀ s : Source, (s.compile deps).faults = [] →
      (s.compile deps).table.names = s.outline.decls.flatMap Decl.names := by
  constructor
  · intro before d e
    exact ⟨e.scope.elaborate d, rfl, rfl, e.scope.settled_elaborate d, e.scope.token_mem_words d⟩
  · intro s h
    have hfaults : ((start deps).run s.outline.decls).faults = [] :=
      List.eq_nil_of_length_eq_zero (by simpa [Source.compile] using congrArg List.length h)
    simpa [start, Table.names, Source.compile] using names_run hfaults

/-- A file without faults, with declarations of all kinds, and then a declaration of types of which
one is new and the other is not. -/
theorem settled_declare_clean_file :
    let s := Source.ofText "logic" ("type P S term P all(S x, P p) \x7b all x p \x7d " ++
      "axiom gen(S x, P p) \x7b #diff x p -| p |- all(x, p) \x7d " ++
      "thm t(S x, P p) \x7b #diff x p -| p |- all(x, p) \x7d = \x7b gen(x, p) \x7d")
    let e := (start []).run s.outline.decls
    let d : Decl := .types [⟨.word, "S", ⟨0, 1⟩⟩, ⟨.word, "T", ⟨2, 3⟩⟩]
    (s.compile []).faults = [] ∧
      (s.compile []).table.names = ["P", "S", "all", "gen", "t"] ∧
      ∃ o : Outcome, (e.declare d).scope = e.scope.append o.symbols ∧
        o.symbols.length + o.faults.length = 2 := by
  intro s e d
  have hfaults : (s.compile []).faults = [] := List.isEmpty_iff.mp (by decide +kernel)
  obtain ⟨hdeclare, hnames⟩ := settled_declare []
  obtain ⟨o, hscope, -, hsettled, -⟩ := hdeclare s.outline.decls d
  exact ⟨hfaults, (hnames s hfaults).trans (by decide +kernel), o, hscope, hsettled.1⟩

end Elaboration

end Axiomata
