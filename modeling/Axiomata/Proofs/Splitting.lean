import Axiomata.Development.File
import Axiomata.Proofs.Fresh

/-!
# Splitting a development into files

Elaboration sees a scope only through the symbols that names resolve to. Two scopes in which every
name resolves to the same symbol are therefore as good as each other for any declaration
(`Scope.elaborate_congr`), and stay so after it. The table of a file may become one of those that the
next file depends on without any name changing its meaning (`Scope.resolve_nextFile`), because no name
of a file is used by the files that it depends on.
-/

namespace Axiomata

/-! ## Scopes in which names mean the same -/

section Congruence

variable {s t : Scope} (h : s.resolve = t.resolve)

include h

/-- Constructors are found by resolving their names. -/
theorem Scope.ctor?_congr : s.ctor? = t.ctor? := by
  funext name
  simp only [Scope.ctor?, h]

/-- What is wrong with a name is told by what it resolves to. -/
theorem Scope.nameFault?_congr : s.nameFault? = t.nameFault? := by
  funext name
  simp only [Scope.nameFault?, h]

/-- What is wrong with a type is told by what it resolves to. -/
theorem Scope.badType?_congr : s.badType? = t.badType? := by
  funext name
  simp only [Scope.badType?, Scope.typeFault?, h]

theorem Scope.badName?_congr : s.badName? = t.badName? := by
  funext name
  simp only [Scope.badName?, Scope.nameFault?_congr h]

/-- What is wrong with parameters is told by what their types and names resolve to. -/
theorem Scope.badParam?_congr (seen : List String) (ps : List ParamDecl) :
    s.badParam? seen ps = t.badParam? seen ps := by
  induction ps generalizing seen with
  | nil => rfl
  | cons p ps ih =>
    simp only [Scope.badParam?, Scope.badType?_congr h, Scope.badName?_congr h, ih]

/-- An expression stands for the same term wherever names resolve alike. The proof goes along with
`instantiateAll_congr`, as the definitions do. -/
theorem Expr.instantiate_congr (params : List Param) (e : Expr) :
    instantiate s params e = instantiate t params e := by
  induction e with
  | node root args ih =>
    have hfst : (instantiateAll s params args).1 = (instantiateAll t params args).1 := by
      rw [instantiateAll_fst, instantiateAll_fst]
      exact List.map_congr_left fun e he => by rw [ih e he]
    have hsnd : (instantiateAll s params args).2 = (instantiateAll t params args).2 := by
      rw [instantiateAll_snd, instantiateAll_snd]
      exact List.flatMap_congr fun e he => by rw [ih e he]
    simp only [instantiate, Scope.ctor?_congr h, hfst, hsnd]

/-- So do several expressions, one by one. -/
theorem Expr.instantiateAll_congr (params : List Param) (es : List Expr) :
    instantiateAll s params es = instantiateAll t params es := by
  refine Prod.ext ?_ ?_
  · simp only [instantiateAll_fst, Expr.instantiate_congr h]
  · simp only [instantiateAll_snd, Expr.instantiate_congr h]

/-- So do several expressions that have to stand for terms together. -/
theorem Expr.instantiateEach_congr (params : List Param) (es : List Expr) :
    instantiateEach s params es = instantiateEach t params es := by
  induction es with
  | nil => rfl
  | cons e es ih => simp only [instantiateEach, Expr.instantiate_congr h, ih]

/-- A statement gives the same rule. -/
theorem Statement.elaborate_congr (st : Statement) : st.elaborate s = st.elaborate t := by
  simp only [Statement.elaborate, Scope.badName?_congr h, Scope.badParam?_congr h,
    Expr.instantiateEach_congr h]

/-- An expression is the same step. -/
theorem Expr.toStep_congr (statement : Rule) (e : Expr) :
    e.toStep s statement = e.toStep t statement := by
  cases e with
  | node root args =>
    simp only [Expr.toStep, Scope.rule?, h, Expr.instantiateAll_congr h]

/-- A proof has the same steps. -/
theorem Rule.citedSteps_congr (statement : Rule) (proof : List Expr) :
    statement.citedSteps s proof = statement.citedSteps t proof := by
  simp only [Rule.citedSteps, Expr.toStep_congr h]

/-- The same faults are found in the steps of a proof. -/
theorem Rule.stepFaults_congr (statement : Rule) (proof : List Expr) :
    statement.stepFaults s proof = statement.stepFaults t proof := by
  simp only [Rule.stepFaults, Expr.toStep_congr h]

/-- A symbol is added to both scopes or to neither. -/
theorem Scope.register_congr (token : Token) (x : Symbol) :
    s.register token x = t.register token x := by
  simp only [Scope.register_eq, Scope.nameFault?_congr h]

/-- Fresh symbols are found in both scopes alike. -/
theorem Scope.resolve_append_congr {ss : List Symbol} (hs : s.Fresh ss) (ht : t.Fresh ss) :
    (s.append ss).resolve = (t.append ss).resolve := by
  funext name
  rw [Scope.resolve_append hs, Scope.resolve_append ht, h]

omit h in
/-- The same types are added. Those that were added first are in the way of the others, so the
induction is over all scopes that resolve names alike. -/
theorem Scope.declareTypes_congr (h : s.resolve = t.resolve) (ts : List Token) :
    s.declareTypes ts = t.declareTypes ts := by
  induction ts generalizing s t with
  | nil => rfl
  | cons token ts ih =>
    simp only [Scope.declareTypes_cons]
    have hfirst := Scope.register_congr h token (.type token.text)
    have hs := s.fresh_register token (.type token.text)
    have ht := t.fresh_register token (.type token.text)
    rw [hfirst] at hs ⊢
    rw [ih (Scope.resolve_append_congr h hs ht)]

/-- Elaboration depends on a scope only through what names resolve to. -/
theorem Scope.elaborate_congr (d : Decl) : s.elaborate d = t.elaborate d := by
  cases d with
  | types names => exact Scope.declareTypes_congr h names
  | term type name params body =>
    simp only [Scope.elaborate, Scope.declareTerm, Scope.badType?_congr h, Scope.badName?_congr h,
      Scope.badParam?_congr h, Scope.register_congr h]
  | postulate st =>
    simp only [Scope.elaborate, Scope.declarePostulate, Statement.elaborate_congr h,
      Scope.register_congr h]
  | thm st proof =>
    simp only [Scope.elaborate, Scope.declareThm, Statement.elaborate_congr h,
      Scope.register_congr h, Rule.citedSteps_congr h, Rule.stepFaults_congr h]

/-- The words of an expression are marked alike. -/
theorem Expr.marks_congr (params : List Param) (e : Expr) :
    e.marks s params = e.marks t params := by
  induction e with
  | node root args ih =>
    have hall : marksAll s params args = marksAll t params args := by
      rw [marksAll_eq_flatMap, marksAll_eq_flatMap]
      exact List.flatMap_congr ih
    simp only [marks, Scope.ctor?_congr h, hall]

theorem Expr.marksEach_congr (params : List Param) (es : List Expr) :
    marksEach s params es = marksEach t params es := by
  induction es with
  | nil => rfl
  | cons e es ih => simp only [marksEach, Expr.marks_congr h, Expr.instantiate_congr h, ih]

/-- The words of a step are marked alike. -/
theorem Expr.stepMarks_congr (params : List Param) (e : Expr) :
    e.stepMarks s params = e.stepMarks t params := by
  have hmarks : marks s params = marks t params := funext (Expr.marks_congr h params)
  cases e with
  | node root args => simp only [stepMarks, marksAll_eq_flatMap, hmarks, h]

theorem Statement.marks_congr (st : Statement) : st.marks s = st.marks t := by
  simp only [Statement.marks, Scope.badName?_congr h, Scope.badParam?_congr h,
    Expr.marksEach_congr h, Expr.instantiateEach_congr h]

/-- The words of a declaration are marked alike. -/
theorem Decl.marks_congr (d : Decl) : d.marks s = d.marks t := by
  cases d with
  | types names => rfl
  | term type name params body =>
    have helab := Scope.elaborate_congr h (.term type name params body)
    simp only [Scope.elaborate] at helab
    simp only [Decl.marks, helab]
  | postulate st => exact Statement.marks_congr h st
  | thm st proof =>
    have hsteps : ∀ params, Expr.stepMarks s params = Expr.stepMarks t params :=
      fun params => funext (Expr.stepMarks_congr h params)
    simp only [Decl.marks, Statement.marks_congr h, Statement.elaborate_congr h, hsteps]

end Congruence

/-! ## Names across files -/

/-- The names of a file are declared once, none of them is reserved, and none is used by the files
that it depends on. -/
structure Scope.WellNamed (s : Scope) : Prop where
  nodup : s.table.names.Nodup
  unreserved : distinctKeyword ∉ s.table.names
  separate : ∀ name ∈ s.table.names, ∀ t ∈ s.deps, name ∉ t.names

namespace Scope.WellNamed

/-- A file without symbols of its own is well named. -/
theorem of_deps (deps : List Table) : Scope.WellNamed { deps } :=
  ⟨by simp [Table.names], by simp [Table.names], by simp [Table.names]⟩

/-- Adding fresh symbols keeps a file well named. -/
theorem append {s : Scope} (h : s.WellNamed) {ss : List Symbol} (hs : s.Fresh ss) :
    (s.append ss).WellNamed := by
  have hnames : (s.append ss).table.names = s.table.names ++ ss.map Symbol.name := by
    simp [Scope.append, Table.names]
  have hfree : ∀ name ∈ ss.map Symbol.name, name ≠ distinctKeyword ∧
      name ∉ s.table.names ∧ ∀ t ∈ s.deps, name ∉ t.names := by
    intro name hname
    obtain ⟨x, hx, rfl⟩ := List.mem_map.mp hname
    rw [← Scope.resolve_eq_none_iff, ← Scope.nameFault?_eq_none_iff]
    exact hs.free x hx
  refine ⟨?_, ?_, ?_⟩
  · rw [hnames]
    exact List.Nodup.append h.nodup hs.nodup fun name hold hnew => (hfree name hnew).2.1 hold
  · rw [hnames, List.mem_append]
    rintro (hold | hnew)
    · exact h.unreserved hold
    · exact (hfree _ hnew).1 rfl
  · rw [hnames]
    intro name hname
    rcases List.mem_append.mp hname with hold | hnew
    · exact h.separate name hold
    · exact (hfree name hnew).2.2

end Scope.WellNamed

/-- Own symbols may be looked for behind those of the files that a file depends on. -/
theorem Scope.resolve_nextFile {s : Scope} (h : s.WellNamed) : s.nextFile.resolve = s.resolve := by
  funext name
  simp only [Scope.nextFile, Scope.resolve, List.findSome?_append, List.findSome?_singleton]
  have hempty : ({} : Table).get? name = none := rfl
  rw [hempty, Option.none_or]
  cases hget : s.table.get? name with
  | none => simp
  | some x =>
    have hmem : name ∈ s.table.names := (s.table.get?_isSome_iff).mp (by simp [hget])
    have hdeps : s.deps.findSome? (·.get? name) = none := by
      rw [List.findSome?_eq_none_iff]
      intro t ht
      rw [← Option.not_isSome_iff_eq_none, Table.get?_isSome_iff]
      exact h.separate name hmem t ht
    simp [hdeps]

namespace Elaboration

variable {e : Elaboration}

@[simp] theorem deps_declare (e : Elaboration) (d : Decl) :
    (e.declare d).scope.deps = e.scope.deps := rfl

@[simp] theorem deps_run (e : Elaboration) (ds : List Decl) :
    (e.run ds).scope.deps = e.scope.deps := by
  induction ds generalizing e with
  | nil => rfl
  | cons d ds ih => rw [run_cons, ih, deps_declare]

/-- Faults that are found stay. -/
theorem faults_prefix_run (e : Elaboration) (ds : List Decl) : e.faults <+: (e.run ds).faults := by
  induction ds generalizing e with
  | nil => exact List.prefix_rfl
  | cons d ds ih => exact (List.prefix_append _ _).trans (ih (e.declare d))

/-- Whatever is declared, a file stays well named. -/
theorem wellNamed_run (h : e.scope.WellNamed) (ds : List Decl) : (e.run ds).scope.WellNamed := by
  induction ds generalizing e with
  | nil => exact h
  | cons d ds ih => exact ih (h.append (e.scope.fresh_elaborate d))

/-! ## One file and two -/

/-- A file that has come as far as another, with `first` in front of it. -/
structure Continues (first joint own : Elaboration) : Prop where
  resolve_eq : joint.scope.resolve = own.scope.resolve
  symbols_eq : joint.scope.table.symbols = first.scope.table.symbols ++ own.scope.table.symbols
  faults_eq : joint.faults = first.faults ++ own.faults
  marks_eq : joint.marks = first.marks ++ own.marks

/-- A file that starts with another among its dependencies continues it. -/
theorem Continues.start {first : Elaboration} (h : first.scope.WellNamed) :
    Continues first first (.start (first.scope.deps ++ [first.scope.table])) where
  resolve_eq := (Scope.resolve_nextFile h).symm
  symbols_eq := by simp [Elaboration.start]
  faults_eq := by simp [Elaboration.start]
  marks_eq := by simp [Elaboration.start]

/-- One declaration does the same to the joint file and to the one that continues. -/
theorem Continues.declare {first joint own : Elaboration} (h : Continues first joint own)
    (d : Decl) : Continues first (joint.declare d) (own.declare d) := by
  have hd := Scope.elaborate_congr h.resolve_eq d
  have hfresh := joint.scope.fresh_elaborate d
  refine ⟨?_, ?_, ?_, ?_⟩
  · simp only [Elaboration.declare]
    rw [hd] at hfresh ⊢
    exact Scope.resolve_append_congr h.resolve_eq hfresh (own.scope.fresh_elaborate d)
  · simp [Elaboration.declare, Scope.append, hd, h.symbols_eq]
  · simp [Elaboration.declare, hd, h.faults_eq]
  · simp [Elaboration.declare, Decl.marks_congr h.resolve_eq, h.marks_eq]

/-- So do any number of declarations. -/
theorem Continues.run {first joint own : Elaboration} (h : Continues first joint own)
    (ds : List Decl) : Continues first (joint.run ds) (own.run ds) := by
  induction ds generalizing joint own with
  | nil => exact h
  | cons d ds ih => exact ih (h.declare d)

/-- Declarations can be split into two files at any place. The symbols of the one file are those of
the two in turn, with all that goes with them, and so are the faults and the marks; no name is used
twice. -/
theorem run_append_eq_run_run (deps : List Table) (as bs : List Decl) :
    let first := (start deps).run as
    let second := (start (deps ++ [first.scope.table])).run bs
    let joint := (start deps).run (as ++ bs)
    joint.scope.table.symbols = first.scope.table.symbols ++ second.scope.table.symbols ∧
      joint.faults = first.faults ++ second.faults ∧
      joint.marks = first.marks ++ second.marks ∧
      (∀ name ∈ first.scope.table.names, name ∉ second.scope.table.names) ∧
      ∀ dep ∈ deps, ∀ name ∈ dep.names,
        name ∉ first.scope.table.names ∧ name ∉ second.scope.table.names := by
  intro first second joint
  have hfirst : first.scope.WellNamed := wellNamed_run (.of_deps deps) as
  have hsecond : second.scope.WellNamed := wellNamed_run (.of_deps _) bs
  have hdeps : first.scope.deps = deps := deps_run _ as
  have hdeps₂ : second.scope.deps = deps ++ [first.scope.table] := deps_run _ bs
  have hjoint : Continues first joint second := by
    have hrun := (Continues.start hfirst).run bs
    rw [hdeps] at hrun
    simpa only [joint, run_append] using hrun
  refine ⟨hjoint.symbols_eq, hjoint.faults_eq, hjoint.marks_eq, ?_, ?_⟩
  · intro name h₁ h₂
    exact hsecond.separate name h₂ first.scope.table (by simp [hdeps₂]) h₁
  · intro dep hdep name hname
    refine ⟨fun h₁ => ?_, fun h₂ => ?_⟩
    · exact hfirst.separate name h₁ dep (by rw [hdeps]; exact hdep) hname
    · exact hsecond.separate name h₂ dep (by simp [hdeps₂, hdep]) hname

end Elaboration

end Axiomata
