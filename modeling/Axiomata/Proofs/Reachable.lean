import Axiomata.Proofs.Splitting

/-!
# Scopes that declarations lead to

A scope is reachable if it comes about by elaborating declarations, file after file. What a name
resolves to in a reachable scope is the one symbol of that name (`Reachable.resolve_eq_some_iff`), so
that a reachable scope is as good as the list of its symbols. A property of symbols that each
declaration gives to what it adds belongs to all symbols of a reachable scope
(`Reachable.forall_symbols`).
-/

namespace Axiomata

namespace Scope

/-- All symbols of a scope, in the order of their declarations. -/
def symbols (s : Scope) : List Symbol := s.deps.flatMap Table.symbols ++ s.table.symbols

@[simp] theorem symbols_append (s : Scope) (ss : List Symbol) :
    (s.append ss).symbols = s.symbols ++ ss := by
  simp [symbols, append]

@[simp] theorem symbols_nextFile (s : Scope) : s.nextFile.symbols = s.symbols := by
  simp [symbols, nextFile]

/-- A name resolves to a symbol in scope that has the name. -/
theorem mem_symbols_of_resolve {s : Scope} {name : String} {x : Symbol}
    (h : s.resolve name = some x) : x ∈ s.symbols ∧ x.name = name := by
  obtain ⟨hname, hown | ⟨t, ht, hx⟩⟩ := mem_of_resolve h
  · exact ⟨List.mem_append_right _ hown, hname⟩
  · exact ⟨List.mem_append_left _ (List.mem_flatMap.mpr ⟨t, ht, hx⟩), hname⟩

/-- A constructor that is found is in scope and has the name. -/
theorem mem_symbols_of_ctor? {s : Scope} {name : String} {c : Ctor} (h : s.ctor? name = some c) :
    .ctor c ∈ s.symbols ∧ c.name = name := by
  obtain ⟨x, hx, hc⟩ := Option.bind_eq_some_iff.mp h
  cases x with
  | ctor c' =>
    cases hc
    exact mem_symbols_of_resolve hx
  | type _ | postulate _ | thm _ => cases hc

/-- A rule that is found is that of a symbol in scope. -/
theorem mem_symbols_of_rule? {s : Scope} {name : String} {r : Rule} (h : s.rule? name = some r) :
    ∃ x ∈ s.symbols, x.rule? = some r := by
  obtain ⟨x, hx, hr⟩ := Option.bind_eq_some_iff.mp h
  exact ⟨x, (mem_symbols_of_resolve hx).1, hr⟩

/-! ## What a declaration adds -/

/-- The symbol that a declaration can add to a scope. -/
inductive Adds (s : Scope) : Decl → Symbol → Prop
  | type {names : List Token} {t : Token} (ht : t ∈ names) : Adds s (.types names) (.type t.text)
  | ctor {type name : Token} {params : List ParamDecl} {body : List Token}
    (hparams : s.badParam? [] params = none) :
    Adds s (.term type name params body) (.ctor {
      name := name.text
      type := type.text
      params := params.map ParamDecl.toParam
      template := Fragment.ofBody (params.map (·.name.text)) (body.map Token.text) })
  | postulate {st : Statement} {r : Rule} (hr : (st.elaborate s).1 = some r) :
    Adds s (.postulate st) (.postulate r)
  | thm {st : Statement} {proof : List Expr} {r : Rule} (hr : (st.elaborate s).1 = some r) :
    Adds s (.thm st proof) (.thm ⟨r, (r.citedSteps s proof).map Prod.snd⟩)

/-- No other symbol is added than the one that was to be added. -/
theorem eq_of_mem_register {s : Scope} {t : Token} {x y : Symbol}
    (h : y ∈ (s.register t x).symbols) : y = x := by
  rw [register_eq] at h
  split at h
  · simp at h
  · simpa using h

/-- Types are added under the names of their declaration. -/
theorem exists_of_mem_declareTypes {s : Scope} {names : List Token} {x : Symbol}
    (h : x ∈ (s.declareTypes names).symbols) : ∃ t ∈ names, x = .type t.text := by
  induction names generalizing s with
  | nil => simp [declareTypes] at h
  | cons t ts ih =>
    rw [declareTypes_cons, Outcome.symbols_append, List.mem_append] at h
    rcases h with h | h
    · exact ⟨t, by simp, eq_of_mem_register h⟩
    · obtain ⟨u, hu, hx⟩ := ih h
      exact ⟨u, List.mem_cons_of_mem t hu, hx⟩

/-- What a declaration adds is what it may add. -/
theorem adds_of_mem_elaborate {s : Scope} {d : Decl} {x : Symbol}
    (h : x ∈ (s.elaborate d).symbols) : s.Adds d x := by
  cases d with
  | types names =>
    obtain ⟨t, ht, rfl⟩ := exists_of_mem_declareTypes h
    exact .type ht
  | term type name params body =>
    simp only [elaborate, declareTerm] at h
    split at h
    · simp at h
    · rename_i hbad
      rw [Option.or_eq_none_iff, Option.or_eq_none_iff] at hbad
      rw [eq_of_mem_register h]
      exact .ctor hbad.2.2
  | postulate st =>
    simp only [elaborate, declarePostulate] at h
    split at h
    · simp at h
    · rename_i r faults hr
      simp only [Outcome.symbols_append, symbols_report, List.nil_append] at h
      rw [eq_of_mem_register h]
      exact .postulate (by rw [hr])
  | thm st proof =>
    simp only [elaborate, declareThm] at h
    split at h
    · simp at h
    · rename_i r faults hr
      simp only [Outcome.symbols_append, symbols_report, List.nil_append, List.append_nil] at h
      rw [eq_of_mem_register h]
      exact .thm (by rw [hr])

/-! ## Reachable scopes -/

/-- The scopes that declarations lead to, file after file. -/
inductive Reachable (admitted : Decl → Prop) : Scope → Prop
  | empty : Reachable admitted {}
  | declare {s : Scope} {d : Decl} (hs : Reachable admitted s) (hd : admitted d) :
    Reachable admitted (s.append (s.elaborate d).symbols)
  | nextFile {s : Scope} (hs : Reachable admitted s) : Reachable admitted s.nextFile

namespace Reachable

variable {admitted : Decl → Prop} {s : Scope}

/-- In a reachable scope, the symbols of the file have different names that are not used by its
dependencies. -/
theorem wellNamed (h : s.Reachable admitted) : s.WellNamed := by
  induction h with
  | empty => exact .of_deps []
  | declare hs hd ih => exact ih.append (fresh_elaborate _ _)
  | nextFile hs ih => exact .of_deps _

/-- In a reachable scope a name resolves to the one symbol of that name. -/
theorem resolve_eq_some_iff (h : s.Reachable admitted) {name : String} {x : Symbol} :
    s.resolve name = some x ↔ x ∈ s.symbols ∧ x.name = name := by
  refine ⟨mem_symbols_of_resolve, ?_⟩
  induction h with
  | empty => simp [symbols]
  | nextFile hs ih =>
    rw [symbols_nextFile, resolve_nextFile hs.wellNamed]
    exact ih
  | @declare s d hs hd ih =>
    have hfresh := s.fresh_elaborate d
    rw [symbols_append, resolve_append hfresh]
    rintro ⟨hx, rfl⟩
    rcases List.mem_append.mp hx with hold | hnew
    · rw [ih ⟨hold, rfl⟩, Option.some_or]
    · rw [hfresh.resolve_eq_none hnew, Option.none_or]
      exact hfresh.find?_name hnew

/-- The symbols of a reachable scope have different names. -/
theorem eq_of_name_eq (h : s.Reachable admitted) {x y : Symbol} (hx : x ∈ s.symbols)
    (hy : y ∈ s.symbols) (hname : x.name = y.name) : x = y := by
  have hresolve := h.resolve_eq_some_iff.mpr ⟨hx, hname⟩
  rw [h.resolve_eq_some_iff.mpr ⟨hy, rfl⟩] at hresolve
  exact (Option.some.inj hresolve).symm

/-- Declarations lead from a reachable scope to a reachable scope. -/
theorem run {e : Elaboration} (h : e.scope.Reachable admitted) {ds : List Decl}
    (hds : ∀ d ∈ ds, admitted d) : (e.run ds).scope.Reachable admitted := by
  induction ds generalizing e with
  | nil => exact h
  | cons d ds ih =>
    rw [List.forall_mem_cons] at hds
    exact ih (h.declare hds.1) hds.2

/-- The scope behind a file. -/
theorem compile {deps : List Table} (h : Reachable admitted { deps }) {s : Source}
    (hs : ∀ d ∈ s.outline.decls, admitted d) :
    Reachable admitted { deps := deps ++ [(s.compile deps).table] } := by
  have hnext := (run (e := .start deps) h hs).nextFile
  rwa [Scope.nextFile, Elaboration.deps_run] at hnext

/-- A property that declarations give to the symbols they add, and that no further symbols take
away. -/
theorem forall_symbols {P : List Symbol → Symbol → Prop}
    (mono : ∀ {as bs : List Symbol} {x : Symbol}, as ⊆ bs → P as x → P bs x)
    (step : ∀ {s : Scope} {d : Decl}, s.Reachable admitted → admitted d →
      ∀ x, s.Adds d x → P s.symbols x)
    (h : s.Reachable admitted) : ∀ x ∈ s.symbols, P s.symbols x := by
  induction h with
  | empty => simp [symbols]
  | nextFile hs ih => rwa [symbols_nextFile]
  | declare hs hd ih =>
    rw [symbols_append]
    intro x hx
    refine mono (List.subset_append_left _ _) ?_
    rcases List.mem_append.mp hx with hold | hnew
    · exact ih x hold
    · exact step hs hd x (adds_of_mem_elaborate hnew)

end Reachable

end Scope

theorem CompiledFile.mem_theorems {f : CompiledFile} {t : Theorem} :
    t ∈ f.theorems ↔ .thm t ∈ f.table.symbols := by
  rw [theorems, List.mem_filterMap]
  constructor
  · rintro ⟨x, hx, h⟩
    cases x with
    | thm u =>
      cases h
      exact hx
    | type _ | ctor _ | postulate _ => cases h
  · exact fun h => ⟨.thm t, h, rfl⟩

end Axiomata
