import Axiomata.Development.File
import Axiomata.Proofs.Fresh
import Axiomata.Proofs.Recovery

/-!
# Moving tokens

Reading and elaboration look at the kinds and texts of tokens and never at their spans. To move every
token to another place beforehand, by any rule whatever, therefore comes to the same as moving what
the tokens were made into: declarations (`Outline.ofTokens_relocate`) and faults
(`Elaboration.Matches.run`).

`Reader.Tracks` is this contract for readers and is kept by `bind`. The rule may depend on the token
and on its old place, so that it can also tell the tokens of a list from all others: what is made from
the tokens of a list has no tokens but those (`Outline.token_mem_of_fault`).
-/

namespace Axiomata

/-! ## Tokens, declarations and faults -/

/-- Puts a token somewhere else. -/
def Token.relocate (f : Token → Span) (t : Token) : Token := { t with span := f t }

section

variable (f : Token → Span)

namespace Token

variable (t : Token)

@[simp] theorem kind_relocate : (t.relocate f).kind = t.kind := rfl
@[simp] theorem text_relocate : (t.relocate f).text = t.text := rfl
@[simp] theorem isWord_relocate : (t.relocate f).isWord = t.isWord := rfl
@[simp] theorem isKeyword_relocate : (t.relocate f).isKeyword = t.isKeyword := rfl
@[simp] theorem declKind?_relocate : (t.relocate f).declKind? = t.declKind? := rfl

@[simp] theorem isSymbol_relocate (text : String) : (t.relocate f).isSymbol text = t.isSymbol text :=
  rfl

end Token

namespace Expr

mutual

def relocate : Expr → Expr
  | .node root args => .node (root.relocate f) (relocateAll args)

def relocateAll : List Expr → List Expr
  | [] => []
  | e :: es => e.relocate :: relocateAll es

end

theorem relocateAll_eq_map (es : List Expr) : relocateAll f es = es.map (relocate f) := by
  induction es with
  | nil => rfl
  | cons e es ih => simp [relocateAll, ih]

/-- All names of an expression are moved, those of its arguments included. -/
@[simp] theorem relocate_node (root : Token) (args : List Expr) :
    (node root args).relocate f = .node (root.relocate f) (args.map (relocate f)) := by
  rw [relocate, relocateAll_eq_map]

@[simp] theorem root_relocate (e : Expr) : (e.relocate f).root = e.root.relocate f := by
  cases e with
  | node root args => simp

end Expr

def ParamDecl.relocate (p : ParamDecl) : ParamDecl := ⟨p.type.relocate f, p.name.relocate f⟩

/-- What a parameter is does not depend on where it stands. -/
@[simp] theorem ParamDecl.toParam_relocate (p : ParamDecl) : (p.relocate f).toParam = p.toParam := rfl

def Clauses.relocate (c : Clauses) : Clauses where
  conclusions := c.conclusions.map (Expr.relocate f)
  hypotheses := c.hypotheses.map (Expr.relocate f)
  groups := c.groups.map (·.map (Token.relocate f))

def Statement.relocate (s : Statement) : Statement :=
  ⟨s.name.relocate f, s.params.map (ParamDecl.relocate f), s.clauses.relocate f⟩

def Decl.relocate : Decl → Decl
  | .types names => .types (names.map (Token.relocate f))
  | .term type name params body =>
    .term (type.relocate f) (name.relocate f) (params.map (ParamDecl.relocate f))
      (body.map (Token.relocate f))
  | .postulate s => .postulate (s.relocate f)
  | .thm s proof => .thm (s.relocate f) (proof.map (Expr.relocate f))

def ParseError.relocate : ParseError → ParseError
  | .unexpected wanted found => .unexpected wanted (found.relocate f)
  | .endOfInput => .endOfInput

def Outline.relocate (o : Outline) : Outline :=
  ⟨o.decls.map (Decl.relocate f), o.errors.map (ParseError.relocate f)⟩

def Diagnostic.relocate (d : Diagnostic) : Diagnostic := ⟨d.fault, d.token.relocate f⟩

/-! ## Readers -/

namespace Reading

variable {α β : Type}

/-- Moves the tokens that are left, and those in the value as given. -/
def relocate (act : α → α) : Reading α → Reading α
  | .ok a rest => .ok (act a) (rest.map (Token.relocate f))
  | .error e rest => .error (e.relocate f) (rest.map (Token.relocate f))

variable {f}

@[simp] theorem relocate_ok (act : α → α) (a : α) (rest : List Token) :
    (ok a rest).relocate f act = .ok (act a) (rest.map (Token.relocate f)) := rfl

@[simp] theorem relocate_error (act : α → α) (e : ParseError) (rest : List Token) :
    (error e rest : Reading α).relocate f act =
      .error (e.relocate f) (rest.map (Token.relocate f)) := rfl

/-- A reading that is gone on with may be moved before or after. -/
theorem relocate_bind {act : α → α} {act' : β → β} {g g' : α → List Token → Reading β}
    (r : Reading α) (h : ∀ a rest, r = .ok a rest →
      g' (act a) (rest.map (Token.relocate f)) = (g a rest).relocate f act') :
    (r.relocate f act).bind g' = (r.bind g).relocate f act' := by
  cases r with
  | ok a rest => exact h a rest rfl
  | error e rest => rfl

/-- A reading whose result is changed may be moved before or after. -/
theorem relocate_map {act : α → α} {act' : β → β} {g g' : α → β} (r : Reading α)
    (h : ∀ a, g' (act a) = act' (g a)) : (r.relocate f act).map g' = (r.map g).relocate f act' := by
  cases r with
  | ok a rest => simp [h]
  | error e rest => rfl

end Reading

namespace Reader

variable {f} {α β : Type}

/-- The second reader makes of moved tokens what the first one makes of them, moved. -/
def Tracks (f : Token → Span) (act : α → α) (p p' : Reader α) : Prop :=
  ∀ ts, p' (ts.map (Token.relocate f)) = (p ts).relocate f act

/-- A reader that looks at no tokens does not look at where they stand. -/
theorem tracks_pure (act : α → α) (a : α) : Tracks f act (pure a) (pure (act a)) := fun _ => rfl

/-- Two readers in turn are tracked if each of them is. -/
theorem Tracks.bind {act : α → α} {act' : β → β} {p p' : Reader α} {g g' : α → Reader β}
    (hp : Tracks f act p p') (hg : ∀ a, Tracks f act' (g a) (g' (act a))) :
    Tracks f act' (p >>= g) (p' >>= g') := by
  intro ts
  rw [bind_apply, bind_apply, hp ts]
  exact Reading.relocate_bind _ fun a rest _ => hg a rest

/-- A demand is tracked if its test does not depend on where a token stands. -/
theorem tracks_demand (wanted : Expectation) {test : Token → Bool}
    (h : ∀ t, test (Token.relocate f t) = test t) :
    Tracks f (Token.relocate f) (demand wanted test) (demand wanted test) := by
  intro ts
  cases ts with
  | nil => rfl
  | cons t ts =>
    rw [List.map_cons, demand, demand, h]
    split <;> rfl

theorem tracks_word : Tracks f (Token.relocate f) word word := tracks_demand _ fun _ => rfl

theorem tracks_keyword : Tracks f (Token.relocate f) keyword keyword := tracks_demand _ fun _ => rfl

theorem tracks_name : Tracks f (Token.relocate f) name name := tracks_demand _ fun _ => rfl

theorem tracks_symbol (text : String) : Tracks f (Token.relocate f) (symbol text) (symbol text) :=
  tracks_demand _ fun _ => rfl

theorem tracks_exactly (text : String) : Tracks f (Token.relocate f) (exactly text) (exactly text) :=
  tracks_demand _ fun _ => rfl

/-- A separator is seen wherever it stands. -/
@[simp] theorem sees_map (text : String) (ts : List Token) :
    sees text (ts.map (Token.relocate f)) = sees text ts := by
  cases ts <;> rfl

/-- A word is seen wherever it stands. -/
@[simp] theorem seesWord_map (ts : List Token) :
    seesWord (ts.map (Token.relocate f)) = seesWord ts := by
  cases ts <;> rfl

@[simp] theorem takeWhile_isWord_map (ts : List Token) :
    (ts.map (Token.relocate f)).takeWhile Token.isWord =
      (ts.takeWhile Token.isWord).map (Token.relocate f) :=
  List.takeWhile_map ..

@[simp] theorem dropWhile_isWord_map (ts : List Token) :
    (ts.map (Token.relocate f)).dropWhile Token.isWord =
      (ts.dropWhile Token.isWord).map (Token.relocate f) :=
  List.dropWhile_map ..

def Frame.relocate (f : Token → Span) (x : Frame) : Frame :=
  ⟨x.root.relocate f, x.args.map (Expr.relocate f)⟩

@[simp] theorem Frame.push_relocate (x : Frame) (e : Expr) :
    (x.relocate f).push (e.relocate f) = (x.push e).relocate f := rfl

/-- An application is closed with its moved arguments. -/
@[simp] theorem Frame.toExpr_relocate (x : Frame) :
    (x.relocate f).toExpr = x.toExpr.relocate f := by
  simp [toExpr, Frame.relocate]

mutual

/-- Expressions and open applications are moved together. The proof goes along with
`resume_relocate`, as the readers do. -/
theorem exprWithin_relocate (stack : List Frame) (ts : List Token) :
    exprWithin (stack.map (Frame.relocate f)) (ts.map (Token.relocate f)) =
      (exprWithin stack ts).relocate f (Expr.relocate f) := by
  match ts with
  | [] => simp [exprWithin, ParseError.relocate]
  | t :: ts =>
    rw [List.map_cons, exprWithin, exprWithin, Token.isWord_relocate, sees_map, ← List.map_drop,
      ← List.map_drop, sees_map]
    split
    · split
      · split
        · exact resume_relocate stack (.node t []) (ts.drop 2)
        · exact exprWithin_relocate ({ root := t } :: stack) (ts.drop 1)
      · exact resume_relocate stack (.node t []) ts
    · rfl
termination_by ts.length

/-- Going on with moved applications is going on with the applications and moving what is read. -/
theorem resume_relocate (stack : List Frame) (e : Expr) (ts : List Token) :
    resume (stack.map (Frame.relocate f)) (e.relocate f) (ts.map (Token.relocate f)) =
      (resume stack e ts).relocate f (Expr.relocate f) := by
  match stack, ts with
  | [], ts => simp [resume]
  | x :: stack, [] => simp [resume, ParseError.relocate]
  | x :: stack, t :: ts =>
    rw [List.map_cons, List.map_cons, resume, resume, Token.isSymbol_relocate,
      Token.isSymbol_relocate, Frame.push_relocate, Frame.toExpr_relocate]
    split
    · exact exprWithin_relocate (x.push e :: stack) ts
    · split
      · exact resume_relocate stack _ ts
      · rfl
termination_by ts.length

end

/-- A moved expression is read as the expression, moved. -/
theorem tracks_expr : Tracks f (Expr.relocate f) expr expr := exprWithin_relocate []

/-- The number of expressions does not depend on where they stand. -/
theorem tracks_exprs : Tracks f (List.map (Expr.relocate f)) exprs exprs := by
  intro ts
  rw [exprs_eq, exprs_eq ts, seesWord_map]
  split
  · rw [tracks_expr ts]
    refine Reading.relocate_bind _ fun e rest h => ?_
    have hlt := consumes_expr ts e rest h
    rw [tracks_exprs rest]
    exact Reading.relocate_map _ fun es => rfl
  · rfl
termination_by ts => ts.length

theorem tracks_param : Tracks f (ParamDecl.relocate f) param param :=
  tracks_word.bind fun _ => tracks_word.bind fun _ => tracks_pure _ _

/-- Parameters are moved one by one, with the commas between them. -/
theorem tracks_paramsFrom : Tracks f (List.map (ParamDecl.relocate f)) paramsFrom paramsFrom := by
  intro ts
  rw [paramsFrom_eq, paramsFrom_eq ts, tracks_param ts]
  refine Reading.relocate_bind _ fun p rest h => ?_
  have hlt := consumes_param ts p rest h
  rw [sees_map, ← List.map_drop]
  split
  · rw [tracks_paramsFrom (rest.drop 1)]
    exact Reading.relocate_map _ fun ps => rfl
  · rw [tracks_symbol closeParen rest]
    exact Reading.relocate_map _ fun _ => rfl
termination_by ts => ts.length
decreasing_by
  simp
  omega

theorem tracks_params : Tracks f (List.map (ParamDecl.relocate f)) params params := by
  refine (tracks_symbol openParen).bind fun _ ts => ?_
  simp only [sees_map, ← List.map_drop]
  split
  · rfl
  · exact tracks_paramsFrom ts

/-- The keywords of clauses are told by their texts. -/
theorem tracks_clauses : Tracks f (Clauses.relocate f) clauses clauses := by
  intro ts
  match ts with
  | [] => simp [clauses, ParseError.relocate]
  | t :: ts =>
    rw [List.map_cons, clauses_cons, clauses_cons, dropWhile_isWord_map, takeWhile_isWord_map,
      Token.isSymbol_relocate, Token.isKeyword_relocate, Token.text_relocate]
    split
    · rfl
    split
    · rfl
    split
    · have hle := (List.dropWhile_suffix (l := ts) Token.isWord).length_le
      rw [tracks_clauses (ts.dropWhile Token.isWord)]
      exact Reading.relocate_map _ fun c => rfl
    -- The two kinds of clauses that list expressions differ only in where they put them.
    have hlist (put : List Expr → Clauses → Clauses)
        (hput : ∀ es c, put (es.map (Expr.relocate f)) (c.relocate f) = (put es c).relocate f) :
        ((exprs (ts.map (Token.relocate f))).bind fun es rest => (clauses rest).map (put es)) =
          ((exprs ts).bind fun es rest => (clauses rest).map (put es)).relocate f
            (Clauses.relocate f) := by
      rw [tracks_exprs ts]
      refine Reading.relocate_bind _ fun es rest h => ?_
      have hle := shrinks_exprs ts es rest h
      rw [tracks_clauses rest]
      exact Reading.relocate_map _ (hput es)
    split
    · exact hlist (fun es c => c.assume es) fun es c => by simp [Clauses.assume, Clauses.relocate]
    split
    · exact hlist (fun es c => c.conclude es) fun es c => by
        simp [Clauses.conclude, Clauses.relocate]
    · rfl
termination_by ts => ts.length
decreasing_by all_goals simp; omega

/-- A body ends at the same brace. -/
theorem tracks_body : Tracks f (List.map (Token.relocate f)) body body := by
  intro ts
  induction ts with
  | nil => rfl
  | cons t ts ih =>
    rw [List.map_cons, body, body, Token.isSymbol_relocate, Token.isSymbol_relocate,
      Token.isKeyword_relocate, ih]
    split
    · rfl
    split
    · rfl
    · exact Reading.relocate_map _ fun b => rfl

/-- The keyword is moved too, since a declaration without names is reported there. -/
theorem tracks_typeNames (opener : Token) :
    Tracks f (Decl.relocate f) (typeNames opener) (typeNames (opener.relocate f)) := by
  intro ts
  rw [typeNames, typeNames, takeWhile_isWord_map, dropWhile_isWord_map]
  cases ts.takeWhile Token.isWord <;> rfl

theorem tracks_termDecl : Tracks f (Decl.relocate f) termDecl termDecl :=
  tracks_word.bind fun _ => tracks_name.bind fun _ => tracks_params.bind fun _ =>
    (tracks_symbol _).bind fun _ => tracks_body.bind fun _ => tracks_pure _ _

theorem tracks_statement : Tracks f (Statement.relocate f) statement statement :=
  tracks_name.bind fun _ => tracks_params.bind fun _ => (tracks_symbol _).bind fun _ =>
    tracks_clauses.bind fun _ => tracks_pure _ _

theorem tracks_thmDecl : Tracks f (Decl.relocate f) thmDecl thmDecl :=
  tracks_statement.bind fun _ => (tracks_exactly _).bind fun _ => (tracks_symbol _).bind fun _ =>
    tracks_exprs.bind fun _ => (tracks_symbol _).bind fun _ => tracks_pure _ _

/-- A moved declaration is read as the declaration, moved. -/
theorem tracks_decl : Tracks f (Decl.relocate f) decl decl := by
  refine tracks_keyword.bind fun opener => ?_
  rw [Token.declKind?_relocate]
  split
  · exact tracks_typeNames opener
  · exact tracks_termDecl
  · exact tracks_statement.bind fun _ => tracks_pure _ _
  · exact tracks_thmDecl
  · exact fun _ => rfl

end Reader

/-- Declarations are read from moved tokens as from the others. -/
theorem Outline.ofTokens_relocate (ts : List Token) :
    ofTokens (ts.map (Token.relocate f)) = (ofTokens ts).relocate f := by
  match ts with
  | [] => simp [ofTokens, relocate]
  | t :: ts =>
    have hdecl := Reader.tracks_decl (f := f) (t :: ts)
    rw [List.map_cons] at hdecl ⊢
    rw [ofTokens_cons, ofTokens_cons, hdecl]
    cases h : Reader.decl (t :: ts) with
    | ok d rest =>
      have hlt := Reader.consumes_decl _ _ _ h
      simp only [Reading.relocate_ok]
      rw [ofTokens_relocate rest]
      rfl
    | error cause rest =>
      have hle := (List.dropWhile_suffix (l := ts) (·.declKind?.isNone)).length_le
      have hdrop : (ts.map (Token.relocate f)).dropWhile (·.declKind?.isNone) =
          (ts.dropWhile (·.declKind?.isNone)).map (Token.relocate f) := List.dropWhile_map ..
      simp only [Reading.relocate_error]
      rw [hdrop, ofTokens_relocate]
      rfl
termination_by ts.length
decreasing_by all_goals simp at *; omega

/-! ## Elaboration -/

namespace Scope

variable (scope : Scope)

/-- What is wrong with a type is reported where the type is moved to. -/
theorem badType?_relocate (t : Token) :
    scope.badType? (t.relocate f) = (scope.badType? t).map (Diagnostic.relocate f) := by
  rw [badType?, badType?, Option.map_map]
  rfl

/-- What is wrong with a name is reported where the name is moved to. -/
theorem badName?_relocate (t : Token) :
    scope.badName? (t.relocate f) = (scope.badName? t).map (Diagnostic.relocate f) := by
  rw [badName?, badName?, Option.map_map]
  rfl

/-- The same parameter is turned down, for the same reason. -/
theorem badParam?_relocate (seen : List String) (ps : List ParamDecl) :
    scope.badParam? seen (ps.map (ParamDecl.relocate f)) =
      (scope.badParam? seen ps).map (Diagnostic.relocate f) := by
  induction ps generalizing seen with
  | nil => rfl
  | cons p ps ih =>
    rw [List.map_cons, badParam?, badParam?, ParamDecl.relocate, badType?_relocate,
      badName?_relocate, Token.text_relocate, ih, Option.map_or, Option.map_or]
    split <;> rfl

end Scope

/-- A result with moved faults. -/
def Diagnostic.relocateAll {α : Type} (r : α × List Diagnostic) : α × List Diagnostic :=
  (r.1, r.2.map (Diagnostic.relocate f))

namespace Expr

variable (scope : Scope) (params : List Param)

/-- Arguments are instantiated one by one, so they may be moved one by one. -/
theorem instantiateAll_relocate {es : List Expr}
    (h : ∀ e ∈ es, (e.relocate f).instantiate scope params =
      Diagnostic.relocateAll f (e.instantiate scope params)) :
    instantiateAll scope params (es.map (relocate f)) =
      Diagnostic.relocateAll f (instantiateAll scope params es) := by
  induction es with
  | nil => rfl
  | cons e es ih =>
    rw [List.forall_mem_cons] at h
    rw [List.map_cons, instantiateAll, instantiateAll, h.1, ih h.2]
    simp [Diagnostic.relocateAll]

/-- A moved expression stands for the same term, and its faults are moved with it. -/
theorem instantiate_relocate (e : Expr) :
    (e.relocate f).instantiate scope params =
      Diagnostic.relocateAll f (e.instantiate scope params) := by
  induction e with
  | node root args ih =>
    rw [relocate_node, instantiate, instantiate, Token.text_relocate, List.isEmpty_map,
      List.length_map, instantiateAll_relocate f scope params ih]
    cases params.find? (·.name == root.text) with
    | some p => cases args.isEmpty <;> rfl
    | none =>
      cases scope.ctor? root.text with
      | none => rfl
      | some c =>
        simp only [Diagnostic.relocateAll]
        split
        · rfl
        split
        · rfl
        · cases Param.fit c.params (instantiateAll scope params args).1 with
          | some ts => rfl
          | none => simp [Diagnostic.relocate]

/-- Moved expressions stand for the same terms, up to the same fault. -/
theorem instantiateEach_relocate (es : List Expr) :
    instantiateEach scope params (es.map (relocate f)) =
      Diagnostic.relocateAll f (instantiateEach scope params es) := by
  induction es with
  | nil => rfl
  | cons e es ih =>
    rw [List.map_cons, instantiateEach, instantiateEach, instantiate_relocate, ih]
    rcases e.instantiate scope params with ⟨_ | t, faults⟩
    · rfl
    · simp [Diagnostic.relocateAll]

end Expr

/-- A moved statement gives the same rule. -/
theorem Statement.elaborate_relocate (scope : Scope) (s : Statement) :
    (s.relocate f).elaborate scope = Diagnostic.relocateAll f (s.elaborate scope) := by
  simp only [Statement.elaborate, Statement.relocate, Clauses.relocate, Scope.badName?_relocate,
    Scope.badParam?_relocate, Expr.instantiateEach_relocate, ← Option.map_or, List.map_map,
    Function.comp_def, ParamDecl.toParam_relocate, Token.text_relocate]
  cases (scope.badName? s.name).or (scope.badParam? [] s.params) with
  | some d => rfl
  | none =>
    simp only [Option.map_none]
    rcases Expr.instantiateEach scope (s.params.map ParamDecl.toParam) s.clauses.conclusions with
      ⟨_ | conclusions, faults⟩
    · rfl
    rcases Expr.instantiateEach scope (s.params.map ParamDecl.toParam) s.clauses.hypotheses with
      ⟨_ | hypotheses, more⟩
    · simp [Diagnostic.relocateAll]
    · simp [Diagnostic.relocateAll]

namespace Rule

variable (r : Rule)

/-- Arguments are counted alike. -/
theorem countFault_relocate (root : Token) (args : List Expr) :
    r.countFault (root.relocate f) (args.map (Expr.relocate f)) =
      (r.countFault root args).map (Diagnostic.relocate f) := by
  rw [countFault, countFault, List.length_map]
  split
  · rfl
  · split <;> rfl

/-- The same arguments are of the wrong type. -/
theorem misfits_relocate (args : List Expr) (terms : List (Option Term)) :
    r.misfits (args.map (Expr.relocate f)) terms =
      (r.misfits args terms).map (Diagnostic.relocate f) := by
  rw [misfits, misfits, List.zip_map_left, List.zip_map_right, List.filterMap_map,
    List.map_filterMap]
  congr 1
  funext ⟨p, e, t⟩
  simp only [Function.comp_apply, Prod.map_apply, id_eq, Expr.root_relocate]
  split <;> rfl

end Rule

/-- A moved step does the same. -/
theorem Expr.toStep_relocate (scope : Scope) (statement : Rule) (e : Expr) :
    (e.relocate f).toStep scope statement = Diagnostic.relocateAll f (e.toStep scope statement) := by
  cases e with
  | node root args =>
    rw [relocate_node, toStep, toStep, Token.text_relocate,
      instantiateAll_relocate f scope _ fun e _ => instantiate_relocate f scope _ e]
    cases scope.rule? root.text with
    | none => rfl
    | some rule =>
      simp only [Diagnostic.relocateAll, Rule.misfits_relocate, Rule.countFault_relocate,
        List.map_append, List.map_map]
      rfl

namespace Rule

variable (statement : Rule) (scope : Scope) (proof : List Expr)

/-- The steps of a moved proof are the same, cited at the moved names. -/
theorem citedSteps_relocate :
    statement.citedSteps scope (proof.map (Expr.relocate f)) =
      (statement.citedSteps scope proof).map (Prod.map (Token.relocate f) id) := by
  rw [citedSteps, citedSteps, List.filterMap_map, List.map_filterMap]
  congr 1
  funext e
  rw [Function.comp_apply, Expr.toStep_relocate, Diagnostic.relocateAll, Option.map_map,
    Expr.root_relocate]
  rfl

/-- The faults of the steps of a moved proof are moved with them. -/
theorem stepFaults_relocate :
    statement.stepFaults scope (proof.map (Expr.relocate f)) =
      (statement.stepFaults scope proof).map (Diagnostic.relocate f) := by
  rw [stepFaults, stepFaults, List.flatMap_map, List.map_flatMap]
  congr 1
  funext e
  rw [Expr.toStep_relocate, Diagnostic.relocateAll]

end Rule

/-- What a replay reports is reported at the moved names. -/
theorem Snapshot.faults_relocate (callees : List Token) (snapshots : List Snapshot) :
    faults (callees.map (Token.relocate f)) snapshots =
      (faults callees snapshots).map (Diagnostic.relocate f) := by
  rw [faults, faults, List.zip_map_left, List.filterMap_map, List.map_filterMap]
  congr 1
  funext ⟨t, s⟩
  simp only [Function.comp_apply, Prod.map_apply, id_eq]
  split <;> rfl

def Outcome.relocate (o : Outcome) : Outcome := ⟨o.symbols, o.faults.map (Diagnostic.relocate f)⟩

@[simp] theorem Outcome.relocate_append (a b : Outcome) :
    (a ++ b).relocate f = a.relocate f ++ b.relocate f := by
  change (⟨_, _⟩ : Outcome) = ⟨_, _⟩
  rw [faults_append, List.map_append]
  rfl

namespace Scope

variable (scope : Scope)

/-- A symbol is added or turned down wherever its name stands. -/
theorem register_relocate (t : Token) (x : Symbol) :
    scope.register (t.relocate f) x = (scope.register t x).relocate f := by
  rw [register, register]
  cases scope.declare x <;> rfl

/-- The same types are added, and the others are reported where they are moved to. -/
theorem declareTypes_relocate (ts : List Token) :
    scope.declareTypes (ts.map (Token.relocate f)) = (scope.declareTypes ts).relocate f := by
  induction ts generalizing scope with
  | nil => rfl
  | cons t ts ih =>
    rw [List.map_cons, declareTypes_cons, declareTypes_cons, register_relocate, ih,
      Outcome.relocate_append]
    rfl

/-- The template of a constructor is made of texts, so it is the same. -/
theorem declareTerm_relocate (type name : Token) (params : List ParamDecl) (body : List Token) :
    scope.declareTerm (type.relocate f) (name.relocate f) (params.map (ParamDecl.relocate f))
        (body.map (Token.relocate f)) = (scope.declareTerm type name params body).relocate f := by
  rw [declareTerm, declareTerm, badType?_relocate, badName?_relocate, badParam?_relocate,
    ← Option.map_or, ← Option.map_or, List.map_map, List.map_map, List.map_map]
  cases (scope.badType? type).or ((scope.badName? name).or (scope.badParam? [] params)) with
  | some d => rfl
  | none => exact register_relocate f scope name _

/-- A moved postulate adds the same rule. -/
theorem declarePostulate_relocate (s : Statement) :
    scope.declarePostulate (s.relocate f) = (scope.declarePostulate s).relocate f := by
  rw [declarePostulate, declarePostulate, Statement.elaborate_relocate]
  rcases s.elaborate scope with ⟨_ | rule, faults⟩
  · rfl
  · rw [Outcome.relocate_append, ← register_relocate]
    rfl

/-- A moved theorem is added with the same steps and is valid or not as before. -/
theorem declareThm_relocate (s : Statement) (proof : List Expr) :
    scope.declareThm (s.relocate f) (proof.map (Expr.relocate f)) =
      (scope.declareThm s proof).relocate f := by
  rw [declareThm, declareThm, Statement.elaborate_relocate]
  rcases s.elaborate scope with ⟨_ | rule, faults⟩
  · rfl
  · simp only [Diagnostic.relocateAll, Rule.citedSteps_relocate, Rule.stepFaults_relocate,
      List.map_map, Outcome.relocate_append, ← register_relocate]
    have hcallees : (rule.citedSteps scope proof).map
        (Prod.fst ∘ Prod.map (Token.relocate f) id) =
          ((rule.citedSteps scope proof).map Prod.fst).map (Token.relocate f) := by
      rw [List.map_map]
      rfl
    have hsteps : (rule.citedSteps scope proof).map (Prod.snd ∘ Prod.map (Token.relocate f) id) =
        (rule.citedSteps scope proof).map Prod.snd := rfl
    rw [hcallees, hsteps, Snapshot.faults_relocate]
    congr 1
    · simp [Outcome.report, Outcome.relocate, Statement.relocate]
    · rw [Outcome.report, Outcome.report, Outcome.relocate]
      split <;> rfl

/-- A moved declaration adds the same symbols, and has the same faults at moved tokens. -/
theorem elaborate_relocate (d : Decl) :
    scope.elaborate (d.relocate f) = (scope.elaborate d).relocate f := by
  cases d with
  | types names => exact declareTypes_relocate f scope names
  | term type name params body => exact declareTerm_relocate f scope type name params body
  | postulate s => exact declarePostulate_relocate f scope s
  | thm s proof => exact declareThm_relocate f scope s proof

end Scope

namespace Elaboration

/-- Two states with the same symbols, the second one with moved faults. -/
structure Matches (e e' : Elaboration) : Prop where
  scope : e'.scope = e.scope
  faults : e'.faults = e.faults.map (Diagnostic.relocate f)

variable {f} {e e' : Elaboration}

/-- A declaration and the moved declaration lead to files that match. -/
theorem Matches.declare (h : Matches f e e') (d : Decl) :
    Matches f (e.declare d) (e'.declare (d.relocate f)) := by
  constructor
  · simp only [Elaboration.declare, h.scope, Scope.elaborate_relocate, Outcome.relocate]
  · simp only [Elaboration.declare, h.scope, h.faults, Scope.elaborate_relocate, Outcome.relocate,
      List.map_append]

/-- So do any number of declarations. -/
theorem Matches.run (h : Matches f e e') (ds : List Decl) :
    Matches f (e.run ds) (e'.run (ds.map (Decl.relocate f))) := by
  induction ds generalizing e e' with
  | nil => exact h
  | cons d ds ih => exact ih (h.declare d)

end Elaboration

end

/-! ## Where tokens come from -/

namespace Token

/-- Leaves the tokens of a list where they are, and moves all others. -/
def strays (ts : List Token) (t : Token) : Span :=
  if t ∈ ts then t.span else ⟨t.span.start + 1, t.span.stop⟩

/-- Tokens of the list are left where they are. -/
theorem map_relocate_strays (ts : List Token) : ts.map (relocate (strays ts)) = ts := by
  refine (List.map_congr_left fun t ht => ?_).trans (List.map_id ts)
  rw [relocate, strays, if_pos ht, id_eq]

/-- A token that is left where it is belongs to the list. -/
theorem mem_of_relocate_strays {ts : List Token} {t : Token} (h : t.relocate (strays ts) = t) :
    t ∈ ts := by
  have hspan : strays ts t = t.span := congrArg Token.span h
  rw [strays] at hspan
  split at hspan
  · assumption
  · exact absurd (congrArg Span.start hspan) (Nat.succ_ne_self _)

end Token

/-- Faults are found at tokens that the declarations were read from. -/
theorem Outline.token_mem_of_fault {ts : List Token} {deps : List Table} {d : Diagnostic}
    (h : d ∈ ((Elaboration.start deps).run (ofTokens ts).decls).faults) : d.token ∈ ts := by
  have hdecls : (ofTokens ts).decls.map (Decl.relocate (Token.strays ts)) = (ofTokens ts).decls := by
    have houtline := ofTokens_relocate (Token.strays ts) ts
    rw [Token.map_relocate_strays] at houtline
    exact (congrArg Outline.decls houtline).symm
  have hstart : Elaboration.Matches (Token.strays ts) (.start deps) (.start deps) := ⟨rfl, rfl⟩
  have hfaults := (hstart.run (ofTokens ts).decls).faults
  rw [hdecls, ← List.map_id' (Elaboration.faults _), List.map_map, List.map_inj_left] at hfaults
  exact Token.mem_of_relocate_strays (congrArg Diagnostic.token (hfaults d h)).symm

end Axiomata
