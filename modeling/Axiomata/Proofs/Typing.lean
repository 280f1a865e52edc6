import Axiomata.Proofs.Reachable

/-!
# Typed terms

What elaboration makes of an expression is a typed term: its variables are parameters of the
statement, its constructors are declared, and every argument has the type that its constructor asks
for. Typed terms stay typed, and keep their types, when terms of the right types are put for their
variables.
-/

namespace Axiomata

namespace Term

/-! ## Variables and other ends of branches -/

mutual

/-- The variables of a term, from left to right. -/
def vars : Term → List String
  | .var name _ => [name]
  | .hole _ _ => []
  | .app _ ts => varsAll ts

def varsAll : List Term → List String
  | [] => []
  | t :: ts => t.vars ++ varsAll ts

end

theorem varsAll_eq_flatMap (ts : List Term) : varsAll ts = ts.flatMap vars := by
  induction ts with
  | nil => rfl
  | cons t ts ih => simp [varsAll, ih]

@[simp] theorem vars_var (n y : String) : (var n y).vars = [n] := rfl
@[simp] theorem vars_hole (n y : String) : (hole n y).vars = [] := rfl

@[simp] theorem vars_app (c : Ctor) (ts : List Term) : (app c ts).vars = ts.flatMap vars := by
  rw [vars, varsAll_eq_flatMap]

mutual

/-- What is shown at the ends of the branches that are no variables, from left to right. -/
def fixedEnds : Term → List String
  | .var _ _ => []
  | .hole name _ => [name]
  | .app c [] => [display (.app c [])]
  | .app _ (t :: ts) => fixedEndsAll (t :: ts)

def fixedEndsAll : List Term → List String
  | [] => []
  | t :: ts => t.fixedEnds ++ fixedEndsAll ts

end

theorem fixedEndsAll_eq_flatMap (ts : List Term) : fixedEndsAll ts = ts.flatMap fixedEnds := by
  induction ts with
  | nil => rfl
  | cons t ts ih => simp [fixedEndsAll, ih]

/-- At the ends of the branches are variables and what is no variable. -/
theorem mem_ends_iff {t : Term} {x : String} : x ∈ t.ends ↔ x ∈ t.vars ∨ x ∈ t.fixedEnds := by
  induction t with
  | var n y => simp [ends, fixedEnds]
  | hole n y => simp [ends, fixedEnds]
  | app c ts ih =>
    cases ts with
    | nil => simp [ends, fixedEnds]
    | cons t ts =>
      rw [ends, vars_app, fixedEnds, endsAll_eq_flatMap, fixedEndsAll_eq_flatMap]
      simp only [List.mem_flatMap, ← exists_or, ← and_or_left]
      exact exists_congr fun u => and_congr_right fun hu => ih u hu

/-- Variables are at the ends of branches. -/
theorem vars_subset_ends (t : Term) : t.vars ⊆ t.ends := fun _ hx => mem_ends_iff.mpr (.inl hx)

/-- So is whatever else is shown at the ends of branches. -/
theorem fixedEnds_subset_ends (t : Term) : t.fixedEnds ⊆ t.ends :=
  fun _ hx => mem_ends_iff.mpr (.inr hx)

/-- A substitution followed by another one, which counts for what the first puts in and for the
variables that the first leaves. -/
theorem subst_subst {σ τ ρ : Subst} {t : Term}
    (h : ∀ x ∈ t.vars, ρ.get? x = ((σ.get? x).map (subst τ)).or (τ.get? x)) :
    (t.subst σ).subst τ = t.subst ρ := by
  induction t with
  | var n y =>
    have hn := h n (by simp)
    rw [subst, subst, hn]
    cases σ.get? n with
    | none => rfl
    | some a => rfl
  | hole n y => simp
  | app c ts ih =>
    simp only [subst_app, List.map_map, app.injEq, true_and]
    refine List.map_congr_left fun t ht => ih t ht fun x hx => h x ?_
    rw [vars_app]
    exact List.mem_flatMap.mpr ⟨t, ht, hx⟩

/-- The variables of a term come from those of what is put for its variables. -/
theorem exists_of_mem_vars_subst {σ : Subst} {t : Term} {x : String}
    (h : ∀ y ∈ t.vars, (σ.get? y).isSome) (hx : x ∈ (t.subst σ).vars) :
    ∃ y ∈ t.vars, ∃ a, σ.get? y = some a ∧ x ∈ a.vars := by
  induction t with
  | var n y =>
    obtain ⟨a, ha⟩ := Option.isSome_iff_exists.mp (h n (by simp))
    rw [subst, ha] at hx
    exact ⟨n, by simp, a, ha, hx⟩
  | hole n y => simp at hx
  | app c ts ih =>
    simp only [subst_app, vars_app, List.mem_flatMap, List.mem_map] at hx h ⊢
    obtain ⟨_, ⟨t, ht, rfl⟩, hx⟩ := hx
    obtain ⟨y, hy, a, ha, hx⟩ := ih t ht (fun y hy => h y ⟨t, ht, hy⟩) hx
    exact ⟨y, ⟨t, ht, hy⟩, a, ha, hx⟩

/-! ## Constructors -/

mutual

/-- The constructors of a term, from left to right. -/
def ctors : Term → List Ctor
  | .var _ _ | .hole _ _ => []
  | .app c ts => c :: ctorsAll ts

def ctorsAll : List Term → List Ctor
  | [] => []
  | t :: ts => t.ctors ++ ctorsAll ts

end

theorem ctorsAll_eq_flatMap (ts : List Term) : ctorsAll ts = ts.flatMap ctors := by
  induction ts with
  | nil => rfl
  | cons t ts ih => simp [ctorsAll, ih]

@[simp] theorem ctors_app (c : Ctor) (ts : List Term) :
    (app c ts).ctors = c :: ts.flatMap ctors := by
  rw [ctors, ctorsAll_eq_flatMap]

/-! ## Typing -/

/-- Terms whose constructors are among the given symbols and take arguments of the types that they
ask for, with the given variables and holes. -/
inductive Typed (symbols : List Symbol) (vars holes : List Param) : Term → Prop
  | var {name type : String} (h : ⟨type, name⟩ ∈ vars) : Typed symbols vars holes (.var name type)
  | hole {name type : String} (h : ⟨type, name⟩ ∈ holes) :
    Typed symbols vars holes (.hole name type)
  | app {c : Ctor} {ts : List Term} (hc : .ctor c ∈ symbols)
    (types : ts.map Term.type = c.params.map Param.type)
    (hts : ∀ t ∈ ts, Typed symbols vars holes t) : Typed symbols vars holes (.app c ts)

namespace Typed

variable {symbols : List Symbol} {vars holes : List Param} {t : Term}

/-- A typed term stays so with more symbols. -/
theorem mono {symbols' : List Symbol} (hs : symbols ⊆ symbols') (h : t.Typed symbols vars holes) :
    t.Typed symbols' vars holes := by
  induction h with
  | var h => exact .var h
  | hole h => exact .hole h
  | app hc types _ ih => exact .app (hs hc) types ih

/-- A typed term is typed over any symbols that its constructors are among. -/
theorem of_ctors {symbols' : List Symbol} (h : t.Typed symbols vars holes)
    (hctors : ∀ c ∈ t.ctors, .ctor c ∈ symbols → .ctor c ∈ symbols') :
    t.Typed symbols' vars holes := by
  induction h with
  | var h => exact .var h
  | hole h => exact .hole h
  | app hc types _ ih =>
    simp only [ctors_app, List.forall_mem_cons, List.mem_flatMap] at hctors
    exact .app (hctors.1 hc) types fun t ht => ih t ht fun c hc => hctors.2 c ⟨t, ht, hc⟩

/-- The constructors of a typed term are among the symbols. -/
theorem mem_symbols (h : t.Typed symbols vars holes) {c : Ctor} (hc : c ∈ t.ctors) :
    .ctor c ∈ symbols := by
  induction h with
  | var _ | hole _ => simp [ctors] at hc
  | app hd _ _ ih =>
    rw [ctors_app] at hc
    rcases List.mem_cons.mp hc with rfl | hc
    · exact hd
    · obtain ⟨t, ht, hc⟩ := List.mem_flatMap.mp hc
      exact ih t ht hc

/-- Arguments of a typed term are typed. -/
theorem of_mem_args (h : t.Typed symbols vars holes) {a : Term} (ha : a ∈ t.args) :
    a.Typed symbols vars holes := by
  cases h with
  | var _ | hole _ => simp [args] at ha
  | app _ _ hts => exact hts a ha

/-- The variables of a typed term are among the given ones. -/
theorem exists_param (h : t.Typed symbols vars holes) {x : String} (hx : x ∈ t.vars) :
    ∃ p ∈ vars, p.name = x := by
  induction h with
  | var h =>
    rw [vars_var, List.mem_singleton] at hx
    exact ⟨_, h, hx.symm⟩
  | hole h => simp at hx
  | app _ _ _ ih =>
    rw [vars_app] at hx
    obtain ⟨t, ht, hx⟩ := List.mem_flatMap.mp hx
    exact ih t ht hx

/-- Putting terms of the right types for the variables of a term without holes. -/
theorem subst {vars' : List Param} {σ : Subst} (h : t.Typed symbols vars [])
    (hσ : ∀ p ∈ vars, ∃ a, σ.get? p.name = some a ∧ a.type = p.type ∧ a.Typed symbols vars' holes) :
    (t.subst σ).type = t.type ∧ (t.subst σ).Typed symbols vars' holes := by
  induction h with
  | var h =>
    obtain ⟨a, ha, htype, ha'⟩ := hσ _ h
    rw [Term.subst, ha]
    exact ⟨htype, ha'⟩
  | hole h => simp at h
  | app hc types _ ih =>
    rw [subst_app]
    refine ⟨rfl, .app hc ?_ ?_⟩
    · rw [← types, List.map_map]
      exact List.map_congr_left fun t ht => (ih t ht).1
    · intro u hu
      obtain ⟨t, ht, rfl⟩ := List.mem_map.mp hu
      exact (ih t ht).2

end Typed

end Term

/-! ## Rules and their arguments -/

namespace Subst

/-- With no name bound twice, a binding is what its name finds. -/
theorem get?_eq_some_of_mem {σ : Subst} (h : (σ.map Prod.fst).Nodup) {name : String} {t : Term}
    (ht : (name, t) ∈ σ) : σ.get? name = some t := by
  induction σ with
  | nil => simp at ht
  | cons b σ ih =>
    rw [List.map_cons, List.nodup_cons] at h
    rw [get?, List.lookup_cons]
    rcases List.mem_cons.mp ht with rfl | ht
    · simp
    · have hne : name ≠ b.1 := fun heq => h.1 (heq ▸ List.mem_map_of_mem ht)
      rw [beq_false_of_ne hne]
      exact ih h.2 ht

/-- A change of all terms of a substitution changes what is found. -/
theorem get?_map (σ : Subst) (f : Term → Term) (name : String) :
    get? (σ.map fun b => (b.1, f b.2)) name = (get? σ name).map f := by
  induction σ with
  | nil => rfl
  | cons b σ ih =>
    obtain ⟨key, t⟩ := b
    simp only [get?, List.map_cons, List.lookup_cons] at ih ⊢
    cases name == key with
    | true => rfl
    | false => exact ih

/-- A term that is found is part of the substitution. -/
theorem mem_of_get? {σ : Subst} {name : String} {t : Term} (h : σ.get? name = some t) :
    (name, t) ∈ σ := by
  induction σ with
  | nil => simp [get?] at h
  | cons b σ ih =>
    rw [get?, List.lookup_cons] at h
    split at h
    · rename_i heq
      cases h
      rw [beq_iff_eq.mp heq]
      exact List.mem_cons_self
    · exact List.mem_cons_of_mem b (ih h)

end Subst

namespace Rule

variable {r : Rule}

/-- A change of all arguments changes what parameters are bound to. -/
theorem get?_bindings_map (r : Rule) (args : List Term) (f : Term → Term) (name : String) :
    (r.bindings (args.map f)).get? name = ((r.bindings args).get? name).map f := by
  rw [← Subst.get?_map, bindings, bindings, Subst.ofList, Subst.ofList, List.zip_map_right,
    List.map_reverse]
  rfl

/-- What a parameter is bound to is the argument in its place. -/
theorem get?_bindings_getElem (h : r.paramNames.Nodup) {args : List Term}
    (hlen : args.length = r.params.length) {i : Nat} (hi : i < r.params.length) :
    (r.bindings args).get? r.params[i].name = some args[i] := by
  have hlen' : r.paramNames.length ≤ args.length := by simp [paramNames, hlen]
  refine Subst.get?_eq_some_of_mem ?_ ?_
  · rwa [bindings, Subst.ofList, List.map_reverse, List.nodup_reverse, List.map_fst_zip hlen']
  · rw [bindings, Subst.ofList, List.mem_reverse, List.mem_iff_getElem]
    exact ⟨i, by simp [paramNames, hlen, hi], by simp [paramNames]⟩

/-- With as many arguments as parameters, all parameters are bound. -/
theorem get?_bindings_isSome {args : List Term} (hlen : args.length = r.params.length) {p : Param}
    (hp : p ∈ r.params) : ((r.bindings args).get? p.name).isSome := by
  have hlen' : r.paramNames.length ≤ args.length := by simp [paramNames, hlen]
  have hkeys : (r.bindings args).map Prod.fst = r.paramNames.reverse := by
    rw [bindings, Subst.ofList, List.map_reverse, List.map_fst_zip hlen']
  have hmem : p.name ∈ (r.bindings args).map Prod.fst := by
    rw [hkeys, List.mem_reverse]
    exact List.mem_map_of_mem hp
  by_contra hnone
  rw [Option.not_isSome_iff_eq_none, Subst.get?, List.lookup_eq_none_iff] at hnone
  obtain ⟨b, hb, hname⟩ := List.mem_map.mp hmem
  simpa [hname] using hnone b hb

/-- What the variables of a rule are bound to, once its arguments are mapped. -/
theorem exists_binding_map {symbols : List Symbol} {args : List Term}
    (hlen : args.length = r.params.length) {t : Term} (ht : t.Typed symbols r.params [])
    (f : Term → Term) : ∀ x ∈ t.vars, ∃ a, (r.bindings args).get? x = some a ∧
      (r.bindings (args.map f)).get? x = some (f a) := by
  intro x hx
  obtain ⟨p, hp, rfl⟩ := ht.exists_param hx
  obtain ⟨a, ha⟩ := Option.isSome_iff_exists.mp (get?_bindings_isSome hlen hp)
  exact ⟨a, ha, by rw [get?_bindings_map, ha]; rfl⟩

/-- Only parameters are bound, and only to arguments. -/
theorem mem_args_of_get?_bindings {args : List Term} {name : String} {a : Term}
    (h : (r.bindings args).get? name = some a) : name ∈ r.paramNames ∧ a ∈ args := by
  have hmem := Subst.mem_of_get? h
  rw [bindings, Subst.ofList, List.mem_reverse] at hmem
  exact List.of_mem_zip hmem

/-- Arguments of the types that a rule asks for, with the given variables and holes. -/
structure Fits (symbols : List Symbol) (vars holes : List Param) (r : Rule) (args : List Term) :
    Prop where
  types : args.map Term.type = r.params.map Param.type
  typed : ∀ a ∈ args, a.Typed symbols vars holes

namespace Fits

variable {symbols symbols' : List Symbol} {vars holes : List Param} {args : List Term}

/-- Arguments that fit stay so with more symbols. -/
theorem mono (hs : symbols ⊆ symbols') (h : r.Fits symbols vars holes args) :
    r.Fits symbols' vars holes args :=
  ⟨h.types, fun a ha => (h.typed a ha).mono hs⟩

theorem length_eq (h : r.Fits symbols vars holes args) : args.length = r.params.length := by
  simpa using congrArg List.length h.types

/-- If parameters have different names, each is bound to an argument of its type. -/
theorem exists_binding (h : r.Fits symbols vars holes args) (hnodup : r.paramNames.Nodup) :
    ∀ p ∈ r.params, ∃ a, (r.bindings args).get? p.name = some a ∧ a.type = p.type ∧
      a.Typed symbols vars holes := by
  intro p hp
  obtain ⟨i, hi, rfl⟩ := List.mem_iff_getElem.mp hp
  have hi' : i < args.length := h.length_eq ▸ hi
  refine ⟨args[i], get?_bindings_getElem hnodup h.length_eq hi, ?_, h.typed _ (by simp)⟩
  have htypes : (args.map Term.type)[i]? = (r.params.map Param.type)[i]? := by rw [h.types]
  simpa [hi, hi'] using htypes

/-- What a rule says of such arguments is typed like them. -/
theorem typed_subst (h : r.Fits symbols vars holes args) (hnodup : r.paramNames.Nodup) {t : Term}
    (ht : t.Typed symbols r.params []) : (t.subst (r.bindings args)).Typed symbols vars holes :=
  (ht.subst (h.exists_binding hnodup)).2

end Fits

/-- A rule whose parameters have different names and whose terms are typed over them. -/
structure WellFormed (symbols : List Symbol) (r : Rule) : Prop where
  nodup : r.paramNames.Nodup
  conclusions : ∀ t ∈ r.conclusions, t.Typed symbols r.params []
  hypotheses : ∀ t ∈ r.hypotheses, t.Typed symbols r.params []

/-- A well-formed rule stays so with more symbols. -/
theorem WellFormed.mono {as bs : List Symbol} (hs : as ⊆ bs) (h : r.WellFormed as) :
    r.WellFormed bs :=
  ⟨h.nodup, fun t ht => (h.conclusions t ht).mono hs, fun t ht => (h.hypotheses t ht).mono hs⟩

end Rule

/-! ## Elaboration gives typed terms -/

/-- Arguments are accepted only if all of them are there and of the right types. -/
theorem Param.fit_eq_some {ps : List Param} {ts : List (Option Term)} {us : List Term}
    (h : fit ps ts = some us) : ts = us.map some ∧ us.map Term.type = ps.map Param.type := by
  fun_induction fit ps ts generalizing us with
  | case1 =>
    cases h
    exact ⟨rfl, rfl⟩
  | case2 p ps t ts htype ih =>
    obtain ⟨vs, hvs, rfl⟩ := Option.map_eq_some_iff.mp h
    obtain ⟨hts, htypes⟩ := ih hvs
    exact ⟨by simp [hts], by simp [htypes, beq_iff_eq.mp htype]⟩
  | case3 => simp at h
  | case4 => simp at h

/-- Arguments of the right types are accepted. -/
theorem Param.fit_map_some {ps : List Param} {us : List Term}
    (h : us.map Term.type = ps.map Param.type) : fit ps (us.map some) = some us := by
  induction us generalizing ps with
  | nil =>
    obtain rfl := List.map_eq_nil_iff.mp h.symm
    rfl
  | cons u us ih =>
    cases ps with
    | nil => simp at h
    | cons p ps =>
      rw [List.map_cons, List.map_cons, List.cons.injEq] at h
      simp [fit, h.1, ih h.2]

namespace Expr

variable {scope : Scope} {params : List Param}

/-- What an expression stands for: the parameter of its name if there is one, and otherwise the
constructor of that name applied to what its arguments stand for. -/
theorem instantiate_eq_some_iff {root : Token} {args : List Expr} {t : Term} :
    (instantiate scope params (.node root args)).1 = some t ↔
      (∃ p, params.find? (·.name == root.text) = some p ∧ args = [] ∧ t = .var p.name p.type) ∨
      params.find? (·.name == root.text) = none ∧ ∃ c ts, scope.ctor? root.text = some c ∧
        args.map (fun e => (instantiate scope params e).1) = ts.map some ∧
        ts.map Term.type = c.params.map Param.type ∧ t = .app c ts := by
  rw [instantiate]
  cases params.find? (·.name == root.text) with
  | some p =>
    simp only [List.isEmpty_iff, Option.some.injEq, exists_eq_left', reduceCtorEq, false_and, or_false]
    split
    · rename_i hargs
      simp [hargs, eq_comm]
    · rename_i hargs
      simp [hargs]
  | none =>
    simp only [instantiateAll_fst, reduceCtorEq, false_and, exists_false, false_or, true_and]
    constructor
    · intro h
      split at h
      · cases h
      · rename_i c hc
        split at h
        · cases h
        split at h
        · cases h
        split at h
        · rename_i ts hfit
          cases h
          obtain ⟨hargs, htypes⟩ := Param.fit_eq_some hfit
          exact ⟨c, ts, hc, hargs, htypes, rfl⟩
        · cases h
    · rintro ⟨c, ts, hc, hargs, htypes, rfl⟩
      have hlen : args.length = c.arity := by
        have hterms := congrArg List.length hargs
        have hparams := congrArg List.length htypes
        simp only [List.length_map] at hterms hparams
        rw [hterms, hparams, Ctor.arity]
      simp [hc, hlen, hargs, Param.fit_map_some htypes]

/-- An expression stands for a typed term without holes. -/
theorem typed_instantiate {e : Expr} {t : Term} (h : (instantiate scope params e).1 = some t) :
    t.Typed scope.symbols params [] := by
  induction e generalizing t with
  | node root args ih =>
    rcases instantiate_eq_some_iff.mp h with ⟨p, hp, -, rfl⟩ | ⟨-, c, ts, hc, hargs, htypes, rfl⟩
    · exact .var (List.mem_of_find?_eq_some hp)
    · refine .app (Scope.mem_symbols_of_ctor? hc).1 htypes fun u hu => ?_
      have hmem : some u ∈ args.map fun e => (instantiate scope params e).1 :=
        hargs ▸ List.mem_map_of_mem hu
      obtain ⟨e, he, hinst⟩ := List.mem_map.mp hmem
      exact ih e he hinst

/-- Expressions stand for terms together if each of them stands for one. -/
theorem instantiateEach_eq_some_iff {es : List Expr} {ts : List Term} :
    (instantiateEach scope params es).1 = some ts ↔
      es.map (fun e => (instantiate scope params e).1) = ts.map some := by
  induction es generalizing ts with
  | nil => cases ts <;> simp [instantiateEach]
  | cons e es ih =>
    rw [instantiateEach, List.map_cons]
    rcases instantiate scope params e with ⟨_ | t, faults⟩
    · cases ts <;> simp
    · cases ts with
      | nil => simp
      | cons u us => simp [Option.map_eq_some_iff, ih, and_comm]

/-- Expressions stand for typed terms without holes. -/
theorem typed_instantiateEach {es : List Expr} {ts : List Term}
    (h : (instantiateEach scope params es).1 = some ts) :
    ∀ t ∈ ts, t.Typed scope.symbols params [] := by
  intro t ht
  have hmem : some t ∈ es.map fun e => (instantiate scope params e).1 :=
    instantiateEach_eq_some_iff.mp h ▸ List.mem_map_of_mem ht
  obtain ⟨e, -, hinst⟩ := List.mem_map.mp hmem
  exact typed_instantiate hinst

/-- An expression that fails reports a fault. -/
theorem isSome_instantiate {e : Expr} :
    (instantiate scope params e).2 = [] → (instantiate scope params e).1.isSome := by
  cases e with
  | node root args =>
    rw [instantiate]
    split
    · split <;> simp
    · split
      · simp
      split
      · simp
      split
      · simp
      simp only
      split <;> simp

/-- What becomes a term reports nothing. -/
theorem instantiate_snd_eq_nil {e : Expr} {t : Term} (h : (instantiate scope params e).1 = some t) :
    (instantiate scope params e).2 = [] := by
  induction e generalizing t with
  | node root args ih =>
    rcases instantiate_eq_some_iff.mp h with ⟨p, hp, rfl, -⟩ | ⟨hp, c, ts, hc, hargs, htypes, -⟩
    · simp [instantiate, hp]
    · have hinner : (instantiateAll scope params args).2 = [] := by
        rw [instantiateAll_snd, List.flatMap_eq_nil_iff]
        intro e he
        have hmem : (instantiate scope params e).1 ∈ ts.map some := hargs ▸ List.mem_map_of_mem he
        obtain ⟨u, -, hu⟩ := List.mem_map.mp hmem
        exact ih e he hu.symm
      have hterms : args.length = ts.length := by simpa using congrArg List.length hargs
      have hparams : ts.length = c.arity := by simpa [Ctor.arity] using congrArg List.length htypes
      simp [instantiate, hp, hc, instantiateAll_fst, hargs, Param.fit_map_some htypes, hinner, hterms,
        hparams]

/-- An expression fails if and only if it reports a fault. -/
theorem isSome_instantiate_iff (scope : Scope) (params : List Param) (e : Expr) :
    (instantiate scope params e).1.isSome ↔ (instantiate scope params e).2 = [] := by
  refine ⟨fun h => ?_, isSome_instantiate⟩
  obtain ⟨t, ht⟩ := Option.isSome_iff_exists.mp h
  exact instantiate_snd_eq_nil ht

end Expr

/-- Parameters are accepted if all of their types and names are, and no name is used twice. -/
theorem Scope.badParam?_eq_none_iff {scope : Scope} {seen : List String} {ps : List ParamDecl} :
    scope.badParam? seen ps = none ↔
      (∀ p ∈ ps, scope.badType? p.type = none ∧ scope.badName? p.name = none ∧
        p.name.text ∉ seen) ∧ (ps.map (·.name.text)).Nodup := by
  induction ps generalizing seen with
  | nil => simp [Scope.badParam?]
  | cons p ps ih =>
    simp only [Scope.badParam?, Option.or_eq_none_iff, List.forall_mem_cons, List.map_cons,
      List.nodup_cons]
    by_cases hseen : p.name.text ∈ seen
    · simp [hseen]
    · simp only [List.contains_iff_mem, hseen, if_false, ih, List.mem_cons, not_or]
      grind

/-- Parameters that are accepted have names that mean nothing yet. -/
theorem Scope.resolve_eq_none_of_badParam {scope : Scope} {seen : List String} {ps : List ParamDecl}
    (h : scope.badParam? seen ps = none) {p : ParamDecl} (hp : p ∈ ps) :
    scope.resolve p.name.text = none := by
  have hname : scope.badName? p.name = none := ((badParam?_eq_none_iff.mp h).1 p hp).2.1
  exact (nameFault?_eq_none_iff.mp (Option.map_eq_none_iff.mp hname)).2

/-- What a statement states, if its name, its parameters and all its expressions are accepted. -/
theorem Statement.elaborate_eq_some_iff {scope : Scope} {st : Statement} {r : Rule} :
    (st.elaborate scope).1 = some r ↔
      scope.badName? st.name = none ∧ scope.badParam? [] st.params = none ∧
        r.name = st.name.text ∧ r.params = st.params.map ParamDecl.toParam ∧
        st.clauses.conclusions.map (fun e => (e.instantiate scope r.params).1) =
          r.conclusions.map some ∧
        st.clauses.hypotheses.map (fun e => (e.instantiate scope r.params).1) =
          r.hypotheses.map some ∧
        r.groups = st.clauses.groups.map (·.map Token.text) := by
  simp only [← Expr.instantiateEach_eq_some_iff]
  obtain ⟨name, params, conclusions, hypotheses, groups⟩ := r
  simp only [elaborate]
  constructor
  · intro h
    split at h
    · cases h
    · rename_i hbad
      rw [Option.or_eq_none_iff] at hbad
      split at h
      · cases h
      · rename_i hconclusions
        split at h
        · cases h
        · rename_i hhypotheses
          cases h
          exact ⟨hbad.1, hbad.2, rfl, rfl, by rw [hconclusions], by rw [hhypotheses], rfl⟩
  · rintro ⟨hname, hparams, rfl, rfl, hconclusions, hhypotheses, rfl⟩
    rw [hname, hparams]
    rcases hc : Expr.instantiateEach scope (st.params.map ParamDecl.toParam) st.clauses.conclusions
      with ⟨_ | cs, fs⟩
    · simp [hc] at hconclusions
    rcases hh : Expr.instantiateEach scope (st.params.map ParamDecl.toParam) st.clauses.hypotheses
      with ⟨_ | hs, gs⟩
    · simp [hh] at hhypotheses
    simp_all

/-- What a statement states is well-formed, under the name and with the parameters that are
written. -/
theorem Statement.elaborate_eq_some {scope : Scope} {st : Statement} {r : Rule}
    (h : (st.elaborate scope).1 = some r) :
    r.WellFormed scope.symbols ∧ r.name = st.name.text ∧
      r.params = st.params.map ParamDecl.toParam ∧ scope.badParam? [] st.params = none := by
  obtain ⟨-, hbad, hname, hparams, hconclusions, hhypotheses, -⟩ := elaborate_eq_some_iff.mp h
  rw [← Expr.instantiateEach_eq_some_iff] at hconclusions hhypotheses
  refine ⟨⟨?_, Expr.typed_instantiateEach hconclusions, Expr.typed_instantiateEach hhypotheses⟩,
    hname, hparams, hbad⟩
  simpa [Rule.paramNames, hparams, ParamDecl.toParam, Function.comp_def] using
    (Scope.badParam?_eq_none_iff.mp hbad).2

/-- The steps of a proof come from its expressions. -/
theorem Rule.exists_of_mem_citedSteps {statement : Rule} {scope : Scope} {proof : List Expr}
    {step : Step} (h : step ∈ (statement.citedSteps scope proof).map Prod.snd) :
    ∃ e ∈ proof, (e.toStep scope statement).1 = some step := by
  obtain ⟨⟨root, step⟩, hcited, rfl⟩ := List.mem_map.mp h
  obtain ⟨e, he, hsome⟩ := List.mem_filterMap.mp hcited
  obtain ⟨_, htoStep, heq⟩ := Option.map_eq_some_iff.mp hsome
  cases heq
  exact ⟨e, he, htoStep⟩

/-- The rules of a reachable scope are well-formed in it. -/
theorem Scope.Reachable.wellFormed {admitted : Decl → Prop} {s : Scope} (h : s.Reachable admitted)
    {x : Symbol} (hx : x ∈ s.symbols) {r : Rule} (hr : x.rule? = some r) :
    r.WellFormed s.symbols := by
  refine h.forall_symbols (P := fun ss x => ∀ r, x.rule? = some r → r.WellFormed ss)
    (fun hs hx r hr => (hx r hr).mono hs) ?_ x hx r hr
  intro s d _ _ x hadds r hr
  cases hadds with
  | type _ | ctor _ => cases hr
  | postulate hst =>
    cases hr
    exact (Statement.elaborate_eq_some hst).1
  | thm hst =>
    cases hr
    exact (Statement.elaborate_eq_some hst).1

end Axiomata
