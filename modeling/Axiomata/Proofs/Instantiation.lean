import Axiomata.Proofs.Matching
import Axiomata.Proofs.Typing

/-!
# Instantiation decides typing

An expression becomes a term if and only if it has a type. Types are given by rules that know neither
terms nor faults (`Expr.HasType`), and the term is the one with the same names in the same places
(`Expr.Mirrors`). All arguments are instantiated before one of them is turned down, so that a fault of
the whole comes last (`Expr.Reports`). That an expression without a type has a fault to report is shown
by induction, since an argument that fails has one already.
-/

namespace Axiomata

/-- The first parameter of a name. -/
def Param.First (params : List Param) (name : String) (p : Param) : Prop :=
  p.name = name ∧ ∃ before after, params = before ++ p :: after ∧ ∀ q ∈ before, q.name ≠ name

/-- The search for a parameter finds the first one of the name. -/
theorem Param.find?_eq_some_iff {params : List Param} {name : String} {p : Param} :
    params.find? (·.name == name) = some p ↔ First params name p := by
  simp [List.find?_eq_some_iff_append, First]

theorem Param.First.mem {params : List Param} {name : String} {p : Param}
    (h : First params name p) : p ∈ params :=
  List.mem_of_find?_eq_some (find?_eq_some_iff.mpr h)

theorem Param.find?_eq_none_iff {params : List Param} {name : String} :
    params.find? (·.name == name) = none ↔ ∀ p ∈ params, p.name ≠ name := by
  simp

/-- A constructor is found if the name resolves to it. -/
theorem Scope.ctor?_eq_some_iff {scope : Scope} {name : String} {c : Ctor} :
    scope.ctor? name = some c ↔ scope.resolve name = some (.ctor c) := by
  rw [ctor?, Option.bind_eq_some_iff]
  constructor
  · rintro ⟨x, hx, hc⟩
    cases x with
    | ctor d =>
      cases hc
      exact hx
    | type _ | postulate _ | thm _ => cases hc
  · exact fun h => ⟨_, h, rfl⟩

namespace Expr

section Rules

variable (scope : Scope) (params : List Param)

/-- The type of an expression: that of the first parameter of its name, and if there is none that of the
constructor that the name resolves to, for as many arguments as it has parameters, each of the type of
the parameter in its place. -/
inductive HasType : Expr → String → Prop
  | param {root : Token} {p : Param} (hp : Param.First params root.text p) :
    HasType (.node root []) p.type
  | ctor {root : Token} {es : List Expr} {c : Ctor} (hfree : ∀ p ∈ params, p.name ≠ root.text)
    (hc : scope.resolve root.text = some (.ctor c)) (hlen : es.length = c.params.length)
    (hes : ∀ x ∈ es.zip c.params, HasType x.1 x.2.type) : HasType (.node root es) c.type

/-- A term that has, node by node, what the names of an expression stand for. -/
inductive Mirrors : Expr → Term → Prop
  | param {root : Token} {p : Param} (hp : Param.First params root.text p) :
    Mirrors (.node root []) (.var p.name p.type)
  | ctor {root : Token} {es : List Expr} {c : Ctor} {ts : List Term}
    (hfree : ∀ p ∈ params, p.name ≠ root.text) (hc : scope.resolve root.text = some (.ctor c))
    (hlen : es.length = ts.length) (hts : ∀ x ∈ es.zip ts, Mirrors x.1 x.2) :
    Mirrors (.node root es) (.app c ts)

/-- The faults of an expression. Arguments are looked at only if their number is right. Their faults
come one argument after the other, and a single fault of the whole expression behind them. -/
inductive Reports : Expr → List Diagnostic → Prop
  | nothing {e : Expr} {type : String} (h : e.HasType scope params type) : Reports e []
  | paramArgs {root : Token} {es : List Expr} (hparam : ∃ p ∈ params, p.name = root.text)
    (hes : es ≠ []) : Reports (.node root es) [⟨.tooManyArgs, root⟩]
  | unknown {root : Token} {es : List Expr} (hfree : ∀ p ∈ params, p.name ≠ root.text)
    (hnone : ∀ c, scope.resolve root.text ≠ some (.ctor c)) :
    Reports (.node root es) [⟨.unknownTerm, root⟩]
  | tooMany {root : Token} {es : List Expr} {c : Ctor} (hfree : ∀ p ∈ params, p.name ≠ root.text)
    (hc : scope.resolve root.text = some (.ctor c)) (hlen : c.params.length < es.length) :
    Reports (.node root es) [⟨.tooManyArgs, root⟩]
  | tooFew {root : Token} {es : List Expr} {c : Ctor} (hfree : ∀ p ∈ params, p.name ≠ root.text)
    (hc : scope.resolve root.text = some (.ctor c)) (hlen : es.length < c.params.length) :
    Reports (.node root es) [⟨.tooFewArgs, root⟩]
  | args {root : Token} {es : List Expr} {c : Ctor} (hfree : ∀ p ∈ params, p.name ≠ root.text)
    (hc : scope.resolve root.text = some (.ctor c)) (hlen : es.length = c.params.length)
    (hbad : ∃ x ∈ es.zip c.params, ¬ x.1.HasType scope params x.2.type)
    {faults : Expr → List Diagnostic} (hfaults : ∀ e ∈ es, Reports e (faults e)) :
    Reports (.node root es) (es.flatMap faults ++ [⟨.argType, root⟩])

end Rules

variable {scope : Scope} {params : List Param}

/-! ## Types -/

/-- Expressions become terms of given types if and only if each becomes one of its type. -/
theorem exists_terms_iff {f : Expr → Option Term} {es : List Expr} {ps : List Param} :
    (∃ ts : List Term, es.map f = ts.map some ∧ ts.map Term.type = ps.map Param.type) ↔
      es.map (fun e => (f e).map Term.type) = ps.map fun p => some p.type := by
  constructor
  · rintro ⟨ts, hes, htypes⟩
    calc es.map (fun e => (f e).map Term.type)
        = (es.map f).map (Option.map Term.type) := by rw [List.map_map, Function.comp_def]
      _ = (ts.map Term.type).map some := by simp [hes, Function.comp_def]
      _ = ps.map fun p => some p.type := by rw [htypes, List.map_map, Function.comp_def]
  · intro h
    induction es generalizing ps with
    | nil =>
      rw [List.map_nil, eq_comm, List.map_eq_nil_iff] at h
      exact ⟨[], rfl, by rw [h]; rfl⟩
    | cons e es ih =>
      cases ps with
      | nil => cases h
      | cons p ps =>
        rw [List.map_cons, List.map_cons, List.cons.injEq, Option.map_eq_some_iff] at h
        obtain ⟨⟨t, ht, htype⟩, hrest⟩ := h
        obtain ⟨ts, hts, htypes⟩ := ih hrest
        exact ⟨t :: ts, by simp [ht, hts], by simp [htype, htypes]⟩

/-- An expression has the type of the term it stands for, and no type if it stands for none. -/
theorem hasType_iff {e : Expr} {type : String} :
    e.HasType scope params type ↔ (e.instantiate scope params).1.map Term.type = some type := by
  induction e generalizing type with
  | node root es ih =>
    have hargs {ps : List Param} :
        (es.length = ps.length ∧ ∀ x ∈ es.zip ps, x.1.HasType scope params x.2.type) ↔
          es.map (fun e => (e.instantiate scope params).1.map Term.type) =
            ps.map fun p => some p.type := by
      rw [map_eq_map_iff_zip]
      exact and_congr_right fun _ => forall₂_congr fun x hx => ih x.1 (List.of_mem_zip hx).1
    rw [Option.map_eq_some_iff]
    constructor
    · intro h
      cases h with
      | @param _ p hp =>
        have hfind := Param.find?_eq_some_iff.mpr hp
        exact ⟨.var p.name p.type, instantiate_eq_some_iff.mpr (.inl ⟨p, hfind, rfl, rfl⟩), rfl⟩
      | @ctor _ _ c hfree hc hlen hes =>
        have hfind := Param.find?_eq_none_iff.mpr hfree
        obtain ⟨ts, hts, htypes⟩ := exists_terms_iff.mpr (hargs.mp ⟨hlen, hes⟩)
        exact ⟨.app c ts, instantiate_eq_some_iff.mpr
          (.inr ⟨hfind, c, ts, Scope.ctor?_eq_some_iff.mpr hc, hts, htypes, rfl⟩), rfl⟩
    · rintro ⟨t, ht, rfl⟩
      rcases instantiate_eq_some_iff.mp ht with ⟨p, hp, rfl, rfl⟩ | ⟨hfree, c, ts, hc, hts, htypes, rfl⟩
      · exact .param (Param.find?_eq_some_iff.mp hp)
      · obtain ⟨hlen, hes⟩ := hargs.mpr (exists_terms_iff.mp ⟨ts, hts, htypes⟩)
        exact .ctor (Param.find?_eq_none_iff.mp hfree) (Scope.ctor?_eq_some_iff.mp hc) hlen hes

/-! ## Terms -/

/-- The term that an expression stands for is built like the expression. -/
theorem mirrors_of_instantiate {e : Expr} {t : Term} (h : (e.instantiate scope params).1 = some t) :
    e.Mirrors scope params t := by
  induction e generalizing t with
  | node root es ih =>
    rcases instantiate_eq_some_iff.mp h with ⟨p, hp, rfl, rfl⟩ | ⟨hfree, c, ts, hc, hts, -, rfl⟩
    · exact .param (Param.find?_eq_some_iff.mp hp)
    · obtain ⟨hlen, hts⟩ := map_eq_map_iff_zip.mp hts
      exact .ctor (Param.find?_eq_none_iff.mp hfree) (Scope.ctor?_eq_some_iff.mp hc) hlen
        fun x hx => ih x.1 (List.of_mem_zip hx).1 (hts x hx)

/-- There is no other term to mirror an expression than the one that it becomes. -/
theorem Mirrors.eq_of_instantiate {e : Expr} {t u : Term} (h : e.Mirrors scope params t)
    (hu : (e.instantiate scope params).1 = some u) : u = t := by
  induction h generalizing u with
  | @param root p hp =>
    have hfind := Param.find?_eq_some_iff.mpr hp
    rcases instantiate_eq_some_iff.mp hu with ⟨q, hq, -, rfl⟩ | ⟨hfree, -⟩
    · rw [hfind] at hq
      cases hq
      rfl
    · rw [hfind] at hfree
      cases hfree
  | @ctor root es c ts hfree hc hlen _ ih =>
    have hfind := Param.find?_eq_none_iff.mpr hfree
    rcases instantiate_eq_some_iff.mp hu with ⟨q, hq, -⟩ | ⟨-, d, us, hd, hus, -, rfl⟩
    · rw [hfind] at hq
      cases hq
    · rw [Scope.ctor?_eq_some_iff.mpr hc] at hd
      cases hd
      -- Each argument becomes a term, and there is only one for it to become.
      have hts : es.map (fun e => (e.instantiate scope params).1) = ts.map some := by
        refine map_eq_map_iff_zip.mpr ⟨hlen, fun x hx => ?_⟩
        have hmem : (x.1.instantiate scope params).1 ∈ us.map some :=
          hus ▸ List.mem_map_of_mem (List.of_mem_zip hx).1
        obtain ⟨v, -, hv⟩ := List.mem_map.mp hmem
        rw [← hv, ih x hx hv.symm]
      rw [List.map_injective_iff.mpr (fun _ _ => Option.some.inj) (hus.symm.trans hts)]

/-- An expression that has a type stands for the term that is built like it. -/
theorem instantiate_eq_some_iff_mirrors {e : Expr} {t : Term} :
    (e.instantiate scope params).1 = some t ↔
      e.Mirrors scope params t ∧ e.HasType scope params t.type := by
  constructor
  · exact fun h => ⟨mirrors_of_instantiate h, hasType_iff.mpr (by rw [h, Option.map_some])⟩
  · rintro ⟨hmirrors, htype⟩
    obtain ⟨u, hu, -⟩ := Option.map_eq_some_iff.mp (hasType_iff.mp htype)
    rw [hu, hmirrors.eq_of_instantiate hu]

/-! ## Faults -/

/-- An expression without a type stands for no term. -/
theorem instantiate_eq_none_iff {e : Expr} :
    (e.instantiate scope params).1 = none ↔ ∀ type, ¬ e.HasType scope params type := by
  simp only [hasType_iff]
  cases (e.instantiate scope params).1 <;> simp

section Node

variable {root : Token} {es : List Expr} {c : Ctor}

/-- A parameter takes no arguments. -/
theorem instantiate_paramArgs (hparam : ∃ p ∈ params, p.name = root.text) (hes : es ≠ []) :
    (node root es).instantiate scope params = (none, [⟨.tooManyArgs, root⟩]) := by
  rw [instantiate]
  cases hfind : params.find? (·.name == root.text) with
  | some p => simp [hes]
  | none =>
    obtain ⟨p, hp, hname⟩ := hparam
    exact absurd hname (Param.find?_eq_none_iff.mp hfind p hp)

variable (hfree : ∀ p ∈ params, p.name ≠ root.text)

include hfree

/-- A name must be a parameter or a constructor. -/
theorem instantiate_unknown (hnone : ∀ c, scope.resolve root.text ≠ some (.ctor c)) :
    (node root es).instantiate scope params = (none, [⟨.unknownTerm, root⟩]) := by
  have hctor : scope.ctor? root.text = none :=
    Option.eq_none_iff_forall_ne_some.mpr fun c hc => hnone c (Scope.ctor?_eq_some_iff.mp hc)
  simp [instantiate, Param.find?_eq_none_iff.mpr hfree, hctor]

variable (hc : scope.resolve root.text = some (.ctor c))

include hc

/-- Arguments are counted before they are looked at, so nothing else is reported. -/
theorem instantiate_tooMany (hlen : c.params.length < es.length) :
    (node root es).instantiate scope params = (none, [⟨.tooManyArgs, root⟩]) := by
  simp [instantiate, Param.find?_eq_none_iff.mpr hfree, Scope.ctor?_eq_some_iff.mpr hc, Ctor.arity,
    hlen]

theorem instantiate_tooFew (hlen : es.length < c.params.length) :
    (node root es).instantiate scope params = (none, [⟨.tooFewArgs, root⟩]) := by
  simp [instantiate, Param.find?_eq_none_iff.mpr hfree, Scope.ctor?_eq_some_iff.mpr hc, Ctor.arity,
    hlen, Nat.le_of_lt hlen]

/-- With an argument for each parameter, an application fails because of one of them. -/
theorem instantiate_args_eq_none_iff (hlen : es.length = c.params.length) :
    ((node root es).instantiate scope params).1 = none ↔
      ∃ x ∈ es.zip c.params, ¬ x.1.HasType scope params x.2.type := by
  rw [instantiate_eq_none_iff]
  constructor
  · intro h
    by_contra hall
    push Not at hall
    exact h c.type (.ctor hfree hc hlen hall)
  · rintro ⟨x, hx, hbad⟩ type h
    cases h with
    | param hp => exact hfree _ hp.mem hp.1
    | ctor _ hc' _ hes =>
      rw [hc] at hc'
      cases hc'
      exact hbad (hes x hx)

/-- An application that fails in its arguments is reported behind whatever is reported of them. -/
theorem instantiate_args_snd (hlen : es.length = c.params.length)
    (hnone : ((node root es).instantiate scope params).1 = none) :
    ((node root es).instantiate scope params).2 =
      es.flatMap (fun e => (e.instantiate scope params).2) ++ [⟨.argType, root⟩] := by
  simp only [instantiate, Param.find?_eq_none_iff.mpr hfree, Scope.ctor?_eq_some_iff.mpr hc,
    Ctor.arity, hlen, Nat.lt_irrefl, if_false] at hnone ⊢
  split at hnone
  · cases hnone
  · rw [instantiateAll_snd]

end Node

/-- What instantiation reports is what there is to report. -/
theorem reports_instantiate (e : Expr) :
    e.Reports scope params (e.instantiate scope params).2 := by
  induction e with
  | node root es ih =>
    by_cases htyped : ∃ type, (node root es).HasType scope params type
    · obtain ⟨type, htype⟩ := htyped
      obtain ⟨t, ht, -⟩ := Option.map_eq_some_iff.mp (hasType_iff.mp htype)
      rw [instantiate_snd_eq_nil ht]
      exact .nothing htype
    · have hnone := instantiate_eq_none_iff.mpr (not_exists.mp htyped)
      cases hfind : params.find? (·.name == root.text) with
      | some p =>
        have hp := Param.find?_eq_some_iff.mp hfind
        have hparam : ∃ p ∈ params, p.name = root.text := ⟨p, hp.mem, hp.1⟩
        have hes : es ≠ [] := by
          rintro rfl
          exact htyped ⟨p.type, .param hp⟩
        rw [instantiate_paramArgs hparam hes]
        exact .paramArgs hparam hes
      | none =>
        have hfree := Param.find?_eq_none_iff.mp hfind
        by_cases hctor : ∃ c, scope.resolve root.text = some (.ctor c)
        · obtain ⟨c, hc⟩ := hctor
          rcases Nat.lt_trichotomy es.length c.params.length with hlen | hlen | hlen
          · rw [instantiate_tooFew hfree hc hlen]
            exact .tooFew hfree hc hlen
          · rw [instantiate_args_snd hfree hc hlen hnone]
            exact .args hfree hc hlen ((instantiate_args_eq_none_iff hfree hc hlen).mp hnone) ih
          · rw [instantiate_tooMany hfree hc hlen]
            exact .tooMany hfree hc hlen
        · have hunknown := not_exists.mp hctor
          rw [instantiate_unknown hfree hunknown]
          exact .unknown hfree hunknown

/-- There is one list of faults to report. -/
theorem Reports.eq_instantiate {e : Expr} {ds : List Diagnostic} (h : e.Reports scope params ds) :
    ds = (e.instantiate scope params).2 := by
  induction h with
  | nothing htype =>
    obtain ⟨t, ht, -⟩ := Option.map_eq_some_iff.mp (hasType_iff.mp htype)
    rw [instantiate_snd_eq_nil ht]
  | paramArgs hparam hes => rw [instantiate_paramArgs hparam hes]
  | unknown hfree hnone => rw [instantiate_unknown hfree hnone]
  | tooMany hfree hc hlen => rw [instantiate_tooMany hfree hc hlen]
  | tooFew hfree hc hlen => rw [instantiate_tooFew hfree hc hlen]
  | args hfree hc hlen hbad _ ih =>
    have hnone := (instantiate_args_eq_none_iff hfree hc hlen).mpr hbad
    rw [instantiate_args_snd hfree hc hlen hnone, List.flatMap_congr ih]

/-- An expression becomes a term if and only if it reports no fault, and if and only if it has a type.
The term is the one that has the names of the expression in the same places, and it has this type. What
is reported otherwise are the faults of the arguments, one after the other, with a single fault of the
expression itself behind them, or only the latter if it is turned down before its arguments are looked
at. -/
theorem instantiate_decides_typing (scope : Scope) (params : List Param) (e : Expr) :
    ((e.instantiate scope params).1.isSome ↔ (e.instantiate scope params).2 = []) ∧
    ((e.instantiate scope params).1.isSome ↔ ∃ type, e.HasType scope params type) ∧
    (∀ t, (e.instantiate scope params).1 = some t ↔
      e.Mirrors scope params t ∧ e.HasType scope params t.type) ∧
    ∀ ds, (e.instantiate scope params).2 = ds ↔ e.Reports scope params ds := by
  refine ⟨isSome_instantiate_iff scope params e, ?_, fun t => instantiate_eq_some_iff_mirrors,
    fun ds => ?_⟩
  · simp only [hasType_iff]
    cases (e.instantiate scope params).1 <;> simp
  · constructor
    · rintro rfl
      exact reports_instantiate e
    · exact fun h => h.eq_instantiate.symm

-- All arguments fail, each for a reason of its own, and the last one because of its own argument.
example :
    let neg : Ctor := ⟨"neg", "P", [⟨"P", "a"⟩], [.text "not", .arg 0]⟩
    let and : Ctor := ⟨"and", "P", ["a", "b", "c"].map (⟨"P", ·⟩), [.arg 0, .arg 1, .arg 2]⟩
    let scope : Scope := Scope.append {} [.type "P", .ctor neg, .ctor and]
    let name (text : String) (args : List Expr) : Expr := .node ⟨.word, text, ⟨0, 0⟩⟩ args
    let e := name "and" [name "x" [name "x" []], name "neg" [], name "neg" [name "y" []]]
    (e.instantiate scope [⟨"P", "x"⟩]).2.map (fun d => (d.fault, d.token.text)) =
      [(.tooManyArgs, "x"), (.tooFewArgs, "neg"), (.unknownTerm, "y"), (.argType, "neg"),
        (.argType, "and")] := by
  decide

end Expr

end Axiomata
