import Axiomata.Decl.Basic
import Axiomata.Decl.Reader

/-!
# Reading declarations

Expressions are read with a stack of the applications that are still open, so nesting costs no
recursion of its own. A declaration that cannot be read is reported and passed over: reading goes on
at the next declaration keyword behind the one it started at.
-/

namespace Axiomata

namespace Reader

def openParen : String := "("
def closeParen : String := ")"
def openBrace : String := "\x7b"
def closeBrace : String := "\x7d"
def comma : String := ","

/-- An application whose arguments are being read, the last one first. -/
structure Frame where
  root : Token
  args : List Expr := []

namespace Frame

def push (f : Frame) (e : Expr) : Frame := { f with args := e :: f.args }

def toExpr (f : Frame) : Expr := .node f.root f.args.reverse

end Frame

mutual

/-- Reads an expression that is the next argument of the innermost open application. -/
def exprWithin (stack : List Frame) : List Token → Reading Expr
  | [] => .error .endOfInput []
  | t :: ts =>
    if t.isWord then
      if sees openParen ts then
        if sees closeParen (ts.drop 1) then resume stack (.node t []) (ts.drop 2)
        else exprWithin ({ root := t } :: stack) (ts.drop 1)
      else resume stack (.node t []) ts
    else .error (.unexpected .word t) ts
termination_by ts => ts.length

/-- Goes on with the open applications, the innermost of which has just been given an argument. -/
def resume (stack : List Frame) (e : Expr) (ts : List Token) : Reading Expr :=
  match stack, ts with
  | [], ts => .ok e ts
  | _ :: _, [] => .error .endOfInput []
  | f :: stack, t :: ts =>
    if t.isSymbol comma then exprWithin (f.push e :: stack) ts
    else if t.isSymbol closeParen then resume stack (f.push e).toExpr ts
    else .error (.unexpected (.symbol closeParen) t) ts
termination_by ts.length

end

/-- A word, and arguments in brackets if a bracket follows it. -/
def expr : Reader Expr := exprWithin []

mutual

/-- An expression takes its name, at least. Together with `resume_rest_le` this is why reading comes
to an end, however deep the applications are nested. -/
theorem exprWithin_rest_lt (stack : List Frame) (ts : List Token) {e : Expr} {rest : List Token}
    (h : exprWithin stack ts = .ok e rest) : rest.length < ts.length := by
  match ts with
  | [] => simp [exprWithin] at h
  | t :: ts =>
    rw [exprWithin] at h
    split at h
    · split at h
      · split at h
        · have := resume_rest_le stack _ _ h
          simp at this ⊢
          omega
        · have := exprWithin_rest_lt _ _ h
          simp at this ⊢
          omega
      · have := resume_rest_le stack _ _ h
        simp
        omega
    · simp at h
termination_by ts.length

/-- Closing applications takes nothing but their commas and brackets, and the arguments between
them. -/
theorem resume_rest_le (stack : List Frame) (e : Expr) (ts : List Token) {e' : Expr}
    {rest : List Token} (h : resume stack e ts = .ok e' rest) : rest.length ≤ ts.length := by
  match stack, ts with
  | [], ts =>
    simp [resume] at h
    simp [h.2]
  | _ :: _, [] => simp [resume] at h
  | f :: stack, t :: ts =>
    rw [resume] at h
    split at h
    · have := exprWithin_rest_lt _ _ h
      simp
      omega
    · split at h
      · have := resume_rest_le _ _ _ h
        simp
        omega
      · simp at h
termination_by ts.length

end

/-- An expression is never empty. -/
theorem consumes_expr : Consumes expr := fun ts _ _ h => exprWithin_rest_lt [] ts h

/-- As many expressions as there are. -/
def exprs (ts : List Token) : Reading (List Expr) :=
  if seesWord ts then
    match _h : expr ts with
    | .error cause rest => .error cause rest
    | .ok e rest => (exprs rest).map (e :: ·)
  else .ok [] ts
termination_by ts.length
decreasing_by exact consumes_expr _ _ _ _h

/-- There may be no expression at all. -/
theorem shrinks_exprs : Shrinks exprs := by
  intro ts es rest h
  fun_induction exprs ts generalizing es with
  | case1 => simp at h
  | case2 ts _ e mid hmid ih =>
    obtain ⟨es', hes, -⟩ := Reading.map_eq_ok h
    have := ih es' hes
    have := consumes_expr _ _ _ hmid
    omega
  | case3 =>
    simp at h
    simp [h.2]

def param : Reader ParamDecl := do
  let type ← word
  let name ← word
  return ⟨type, name⟩

/-- A parameter is two words. -/
theorem consumes_param : Consumes param :=
  (consumes_demand _ _).bind fun _ => (consumes_demand _ _).shrinks.bind fun _ => shrinks_pure _

/-- One or more parameters with commas between them, and the closing bracket. -/
def paramsFrom (ts : List Token) : Reading (List ParamDecl) :=
  match _h : param ts with
  | .error cause rest => .error cause rest
  | .ok p rest =>
    if sees comma rest then (paramsFrom (rest.drop 1)).map (p :: ·)
    else (symbol closeParen rest).map fun _ => [p]
termination_by ts.length
decreasing_by
  have := consumes_param _ _ _ _h
  simp
  omega

/-- Parameters are taken from the head of the list. -/
theorem shrinks_paramsFrom : Shrinks paramsFrom := by
  intro ts ps rest h
  fun_induction paramsFrom ts generalizing ps with
  | case1 => simp at h
  | case2 ts p mid hmid _ ih =>
    obtain ⟨ps', hps, -⟩ := Reading.map_eq_ok h
    have := ih ps' hps
    have := consumes_param _ _ _ hmid
    simp at *
    omega
  | case3 ts p mid hmid =>
    obtain ⟨t, ht, -⟩ := Reading.map_eq_ok h
    have := consumes_demand _ _ _ _ _ ht
    have := consumes_param _ _ _ hmid
    omega

/-- A bracketed list of parameters. -/
def params : Reader (List ParamDecl) := do
  let _ ← symbol openParen
  fun ts => if sees closeParen ts then .ok [] (ts.drop 1) else paramsFrom ts

/-- A list of parameters has brackets even if it is empty. -/
theorem consumes_params : Consumes params :=
  (consumes_demand _ _).bind fun _ ts ps rest h => by
    split at h
    · simp at h
      simp [← h.2]
    · exact shrinks_paramsFrom ts ps rest h

/-- Clauses up to the closing brace. -/
def clauses : List Token → Reading Clauses
  | [] => .error .endOfInput []
  | t :: ts =>
    if t.isSymbol closeBrace then .ok {} ts
    else if !t.isKeyword then .error (.unexpected .keyword t) ts
    else if t.text == distinctKeyword then
      (clauses (ts.dropWhile Token.isWord)).map (·.separate (ts.takeWhile Token.isWord))
    else if t.text == hypothesisKeyword then
      match _h : exprs ts with
      | .error cause rest => .error cause rest
      | .ok es rest => (clauses rest).map (·.assume es)
    else if t.text == conclusionKeyword then
      match _h : exprs ts with
      | .error cause rest => .error cause rest
      | .ok es rest => (clauses rest).map (·.conclude es)
    else .error (.unexpected .clause t) ts
termination_by ts => ts.length
decreasing_by
  · have := (List.dropWhile_suffix (l := ts) Token.isWord).length_le
    simp
    omega
  · have := shrinks_exprs _ _ _ _h
    simp
    omega
  · have := shrinks_exprs _ _ _ _h
    simp
    omega

/-- Clauses are taken from the head of the list, up to the brace that closes them. -/
theorem shrinks_clauses : Shrinks clauses := by
  intro ts c rest h
  fun_induction clauses ts generalizing c with
  | case1 => simp at h
  | case2 =>
    simp at h
    simp [h.2]
  | case3 => simp at h
  | case4 t ts _ _ _ ih =>
    obtain ⟨c', hc, -⟩ := Reading.map_eq_ok h
    have := ih c' hc
    have := (List.dropWhile_suffix (l := ts) Token.isWord).length_le
    simp
    omega
  | case5 => simp at h
  | case6 t ts _ _ _ _ es mid hmid ih =>
    obtain ⟨c', hc, -⟩ := Reading.map_eq_ok h
    have := ih c' hc
    have := shrinks_exprs _ _ _ hmid
    simp
    omega
  | case7 => simp at h
  | case8 t ts _ _ _ _ _ es mid hmid ih =>
    obtain ⟨c', hc, -⟩ := Reading.map_eq_ok h
    have := ih c' hc
    have := shrinks_exprs _ _ _ hmid
    simp
    omega
  | case9 => simp at h

/-- The body of a constructor up to the closing brace. -/
def body : List Token → Reading (List Token)
  | [] => .error .endOfInput []
  | t :: ts =>
    if t.isSymbol closeBrace then .ok [] ts
    else if t.isSymbol openBrace || t.isKeyword then .error (.unexpected .bodyToken t) ts
    else (body ts).map (t :: ·)

/-- A body is taken from the head of the list, up to the brace that closes it. -/
theorem shrinks_body : Shrinks body := by
  intro ts b rest h
  fun_induction body ts generalizing b with
  | case1 => simp at h
  | case2 =>
    simp at h
    simp [h.2]
  | case3 => simp at h
  | case4 t ts _ _ ih =>
    obtain ⟨b', hb, -⟩ := Reading.map_eq_ok h
    have := ih b' hb
    simp
    omega

/-- The names of a type declaration. Their absence is reported at the keyword. -/
def typeNames (opener : Token) : Reader Decl := fun ts =>
  match ts.takeWhile Token.isWord with
  | [] => .error (.unexpected .typeName opener) ts
  | names => .ok (.types names) (ts.dropWhile Token.isWord)

def termDecl : Reader Decl := do
  let type ← word
  let name ← name
  let params ← params
  let _ ← symbol openBrace
  let body ← body
  return .term type name params body

def statement : Reader Statement := do
  let name ← name
  let params ← params
  let _ ← symbol openBrace
  let clauses ← clauses
  return ⟨name, params, clauses⟩

def thmDecl : Reader Decl := do
  let statement ← statement
  let _ ← exactly "="
  let _ ← symbol openBrace
  let proof ← exprs
  let _ ← symbol closeBrace
  return .thm statement proof

def decl : Reader Decl := do
  let opener ← keyword
  match opener.declKind? with
  | some .type => typeNames opener
  | some .term => termDecl
  | some .postulate => .postulate <$> statement
  | some .thm => thmDecl
  | none => fun ts => .error (.unexpected .declaration opener) ts

/-- The names of types are all words at the head of the list. -/
theorem shrinks_typeNames (opener : Token) : Shrinks (typeNames opener) := by
  intro ts d rest h
  unfold typeNames at h
  split at h
  · simp at h
  · simp at h
    rw [← h.2]
    exact (List.dropWhile_suffix Token.isWord).length_le

theorem shrinks_termDecl : Shrinks termDecl :=
  (consumes_demand _ _).shrinks.bind fun _ => (consumes_demand _ _).shrinks.bind fun _ =>
    consumes_params.shrinks.bind fun _ => (consumes_demand _ _).shrinks.bind fun _ =>
      shrinks_body.bind fun _ => shrinks_pure _

theorem shrinks_statement : Shrinks statement :=
  (consumes_demand _ _).shrinks.bind fun _ => consumes_params.shrinks.bind fun _ =>
    (consumes_demand _ _).shrinks.bind fun _ => shrinks_clauses.bind fun _ => shrinks_pure _

theorem shrinks_thmDecl : Shrinks thmDecl :=
  shrinks_statement.bind fun _ => (consumes_demand _ _).shrinks.bind fun _ =>
    (consumes_demand _ _).shrinks.bind fun _ => shrinks_exprs.bind fun _ =>
      (consumes_demand _ _).shrinks.bind fun _ => shrinks_pure _

/-- A declaration takes its keyword, at least, so that declarations can be read one after the other.
-/
theorem consumes_decl : Consumes decl :=
  (consumes_demand _ _).bind fun opener => by
    split
    · exact shrinks_typeNames opener
    · exact shrinks_termDecl
    · exact shrinks_statement.bind fun _ => shrinks_pure _
    · exact shrinks_thmDecl
    · intro ts d rest h
      simp at h

end Reader

/-- The declarations of a file and what kept others from being read, each in source order. -/
structure Outline where
  decls : List Decl := []
  errors : List ParseError := []
deriving Inhabited

namespace Outline

def declare (o : Outline) (d : Decl) : Outline := { o with decls := d :: o.decls }

def report (o : Outline) (e : ParseError) : Outline := { o with errors := e :: o.errors }

/-- Reads declarations to the end of the input, which holds no comments. -/
def ofTokens (ts : List Token) : Outline :=
  match ts with
  | [] => {}
  | t :: ts =>
    match _h : Reader.decl (t :: ts) with
    | .ok d rest => (ofTokens rest).declare d
    | .error cause _ => (ofTokens (ts.dropWhile (·.declKind?.isNone))).report cause
termination_by ts.length
decreasing_by
  · exact Reader.consumes_decl _ _ _ _h
  · have := (List.dropWhile_suffix (l := ts) (·.declKind?.isNone)).length_le
    simp
    omega

end Outline

def Source.outline (s : Source) : Outline := .ofTokens s.significant

end Axiomata
