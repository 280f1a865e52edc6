import Axiomata.Decl.Parser

/-!
# Recovery from a declaration that cannot be read

A token that opens a declaration is a fence. No reader takes such a token once it is behind the
opener of its own declaration, and no reader looks at it in any other way than at the end of the
input, except that it says so when it runs into it. A text that is continued by a declaration
therefore gives the declarations of the text and those of the continuation, whatever is wrong with
either.

`Reader.Fenced` is this contract for one reader, and each reader has it. `Outline.ofTokens_append` is
what follows for the loop that reads all declarations.
-/

namespace Axiomata

/-! ## Tokens that open a declaration -/

namespace Token

variable {t : Token}

/-- Declarations are opened by keywords. -/
theorem kind_of_declKind? (h : t.declKind?.isSome) : t.kind = .keyword := by
  unfold declKind? isKeyword at h
  split at h
  · exact beq_iff_eq.mp ‹_›
  · simp at h

/-- A token opens a declaration by its text. -/
theorem ofText?_of_declKind? (h : t.declKind?.isSome) : (DeclKind.ofText? t.text).isSome := by
  unfold declKind? at h
  split at h
  · exact h
  · simp at h

theorem isKeyword_of_declKind? (h : t.declKind?.isSome) : t.isKeyword = true := by
  simp [isKeyword, kind_of_declKind? h]

theorem isWord_of_declKind? (h : t.declKind?.isSome) : t.isWord = false := by
  simp [isWord, kind_of_declKind? h]

theorem isSymbol_of_declKind? (h : t.declKind?.isSome) (text : String) :
    t.isSymbol text = false := by
  simp [isSymbol, kind_of_declKind? h]

theorem isComment_of_declKind? (h : t.declKind?.isSome) : t.isComment = false := by
  simp [isComment, kind_of_declKind? h]

/-- The keywords of clauses open no declaration. -/
theorem text_ne_of_declKind? (h : t.declKind?.isSome) :
    t.text ≠ distinctKeyword ∧ t.text ≠ hypothesisKeyword ∧ t.text ≠ conclusionKeyword := by
  have hsome := ofText?_of_declKind? h
  refine ⟨?_, ?_, ?_⟩ <;>
  · intro heq
    rw [heq] at hsome
    exact absurd hsome (by decide)

/-- The keyword that may be used as a name opens no declaration. -/
theorem isName_of_declKind? (h : t.declKind?.isSome) : t.isName = false := by
  simp [isName, isWord_of_declKind? h, (text_ne_of_declKind? h).1]

end Token

/-! ## Readings of a continued text -/

/-- How the reading of a text and the reading of the text with a declaration behind it go together.
Only running out of tokens shows: the continued text is found wanting at the token that opens the
declaration. -/
inductive Reading.Continued {α : Type} (opener : Token) (tail : List Token) :
    Reading α → Reading α → Prop
  | ok (a : α) (rest : List Token) :
    Continued opener tail (.ok a rest) (.ok a (rest ++ opener :: tail))
  | unexpected (wanted : Expectation) (found : Token) (rest : List Token) :
    Continued opener tail (.error (.unexpected wanted found) rest)
      (.error (.unexpected wanted found) (rest ++ opener :: tail))
  | endOfInput (wanted : Expectation) (rest : List Token) :
    Continued opener tail (.error .endOfInput rest) (.error (.unexpected wanted opener) tail)

namespace Reading.Continued

variable {α β : Type} {opener : Token} {tail : List Token}

/-- Readings that go together may be gone on with, as long as what follows goes together. -/
theorem bind {r s : Reading α} {f : α → List Token → Reading β} (h : Continued opener tail r s)
    (hf : ∀ a rest, Continued opener tail (f a rest) (f a (rest ++ opener :: tail))) :
    Continued opener tail (r.bind f) (s.bind f) := by
  cases h with
  | ok a rest => exact hf a rest
  | unexpected wanted found rest => exact .unexpected wanted found rest
  | endOfInput wanted rest => exact .endOfInput wanted rest

/-- Readings that go together do so when their results are changed alike. -/
theorem map {r s : Reading α} (f : α → β) (h : Continued opener tail r s) :
    Continued opener tail (r.map f) (s.map f) := by
  cases h with
  | ok a rest => exact .ok (f a) rest
  | unexpected wanted found rest => exact .unexpected wanted found rest
  | endOfInput wanted rest => exact .endOfInput wanted rest

end Reading.Continued

namespace Reader

variable {α β : Type} {opener : Token} {tail : List Token}

/-- A reader that does not go past the opener of a declaration. -/
def Fenced (opener : Token) (tail : List Token) (p : Reader α) : Prop :=
  ∀ ts, (p ts).Continued opener tail (p (ts ++ opener :: tail))

/-- A reader that takes no tokens does not go past any. -/
theorem fenced_pure (a : α) : Fenced opener tail (pure a : Reader α) := fun ts => .ok a ts

/-- Two readers in turn do not go past the opener if neither does. -/
theorem Fenced.bind {p : Reader α} {f : α → Reader β} (hp : Fenced opener tail p)
    (hf : ∀ a, Fenced opener tail (f a)) : Fenced opener tail (p >>= f) :=
  fun ts => (hp ts).bind fun a rest => hf a rest

/-- With an opener in the text, no reader behind it runs out of tokens. -/
theorem Fenced.ne_endOfInput {p : Reader α} (hp : Fenced opener tail p) (ts rest : List Token) :
    p (ts ++ opener :: tail) ≠ .error .endOfInput rest := by
  intro h
  have hc := hp ts
  rw [h] at hc
  generalize p ts = r at hc
  cases hc

/-- A demand does not go past the opener if the opener fails its test. -/
theorem fenced_demand {wanted : Expectation} {test : Token → Bool} (ht : test opener = false) :
    Fenced opener tail (demand wanted test) := by
  intro ts
  cases ts with
  | nil => simpa [demand, ht] using .endOfInput wanted []
  | cons t ts =>
    simp only [List.cons_append, demand]
    split
    · exact .ok t ts
    · exact .unexpected wanted t ts

section Readers

variable (h : opener.declKind?.isSome)

include h

theorem fenced_word : Fenced opener tail word := fenced_demand (Token.isWord_of_declKind? h)

/-- The opener of a declaration is not taken for a name. -/
theorem fenced_name : Fenced opener tail name := fenced_demand (Token.isName_of_declKind? h)

theorem fenced_symbol (text : String) : Fenced opener tail (symbol text) :=
  fenced_demand (Token.isSymbol_of_declKind? h text)

theorem fenced_exactly (text : String) : Fenced opener tail (exactly text) :=
  fenced_demand (by simp [Token.isWord_of_declKind? h])

/-- The opener is not taken for a separator, so it may stand where the tokens end. -/
theorem sees_append (text : String) (ts : List Token) :
    sees text (ts ++ opener :: tail) = sees text ts := by
  cases ts with
  | nil => simp [sees, Token.isSymbol_of_declKind? h]
  | cons t ts => rfl

/-- The opener is not taken for a word, so it may stand where the tokens end. -/
theorem seesWord_append (ts : List Token) : seesWord (ts ++ opener :: tail) = seesWord ts := by
  cases ts with
  | nil => simp [seesWord, Token.isWord_of_declKind? h]
  | cons t ts => rfl

/-- Words are taken up to the opener. -/
theorem takeWhile_isWord_append (ts : List Token) :
    (ts ++ opener :: tail).takeWhile Token.isWord = ts.takeWhile Token.isWord := by
  induction ts with
  | nil => simp [Token.isWord_of_declKind? h]
  | cons t ts ih => simp [List.takeWhile_cons, ih]

/-- What is left behind words is continued by the opener. -/
theorem dropWhile_isWord_append (ts : List Token) :
    (ts ++ opener :: tail).dropWhile Token.isWord =
      ts.dropWhile Token.isWord ++ opener :: tail := by
  induction ts with
  | nil => simp [Token.isWord_of_declKind? h]
  | cons t ts ih =>
    simp only [List.cons_append, List.dropWhile_cons, ih]
    split <;> rfl

mutual

/-- By induction on the number of tokens, along with `resume_continued`. -/
theorem exprWithin_continued (stack : List Frame) (ts : List Token) :
    (exprWithin stack ts).Continued opener tail (exprWithin stack (ts ++ opener :: tail)) := by
  match ts with
  | [] =>
    rw [exprWithin, List.nil_append, exprWithin, if_neg (by simp [Token.isWord_of_declKind? h])]
    exact .endOfInput .word []
  | t :: ts =>
    rw [exprWithin, List.cons_append, exprWithin, sees_append h]
    split
    · split
      next hopen =>
        obtain ⟨t', ts, rfl, -⟩ := exists_cons_of_sees hopen
        simp only [List.cons_append, List.drop_succ_cons, List.drop_zero, sees_append h]
        split
        next hclose =>
          obtain ⟨t'', ts, rfl, -⟩ := exists_cons_of_sees hclose
          exact resume_continued stack _ ts
        next => exact exprWithin_continued _ ts
      next => exact resume_continued stack _ ts
    · exact .unexpected .word t ts
termination_by ts.length

/-- Going on with open applications stops at the opener. The proof goes along with
`exprWithin_continued`, as the readers do. -/
theorem resume_continued (stack : List Frame) (e : Expr) (ts : List Token) :
    (resume stack e ts).Continued opener tail (resume stack e (ts ++ opener :: tail)) := by
  match stack, ts with
  | [], ts =>
    rw [resume, resume]
    exact .ok e ts
  | f :: stack, [] =>
    rw [resume, List.nil_append, resume, if_neg (by simp [Token.isSymbol_of_declKind? h]),
      if_neg (by simp [Token.isSymbol_of_declKind? h])]
    exact .endOfInput (.symbol closeParen) []
  | f :: stack, t :: ts =>
    rw [resume, List.cons_append, resume]
    split
    · exact exprWithin_continued _ ts
    · split
      · exact resume_continued stack _ ts
      · exact .unexpected (.symbol closeParen) t ts
termination_by ts.length

end

theorem fenced_expr : Fenced opener tail expr := exprWithin_continued h []

omit h in
/-- Expressions are read as long as there is a word in front. -/
theorem exprs_eq (ts : List Token) :
    exprs ts =
      if seesWord ts then (expr ts).bind fun e rest => (exprs rest).map (e :: ·) else .ok [] ts := by
  rw [exprs]
  split
  · split <;> simp [*]
  · rfl

theorem fenced_exprs : Fenced opener tail exprs := by
  intro ts
  rw [exprs_eq, exprs_eq (ts ++ opener :: tail), seesWord_append h]
  split
  · have hc : Reading.Continued opener tail (expr ts) (expr (ts ++ opener :: tail)) := fenced_expr h ts
    generalize hr : expr ts = r at hc
    generalize expr (ts ++ opener :: tail) = s at hc
    cases hc with
    | ok e rest =>
      have hlt := consumes_expr ts e rest hr
      exact (fenced_exprs rest).map (e :: ·)
    | unexpected wanted found rest => exact .unexpected wanted found rest
    | endOfInput wanted rest => exact .endOfInput wanted rest
  · exact .ok [] ts
termination_by ts => ts.length

theorem fenced_param : Fenced opener tail param :=
  (fenced_word h).bind fun _ => (fenced_word h).bind fun _ => fenced_pure _

omit h in
/-- Parameters are read as long as a comma follows. -/
theorem paramsFrom_eq (ts : List Token) :
    paramsFrom ts = (param ts).bind fun p rest =>
      if sees comma rest then (paramsFrom (rest.drop 1)).map (p :: ·)
      else (symbol closeParen rest).map fun _ => [p] := by
  rw [paramsFrom]
  split <;> simp [*]

/-- By induction on the number of tokens, as each parameter takes some. -/
theorem fenced_paramsFrom : Fenced opener tail paramsFrom := by
  intro ts
  rw [paramsFrom_eq, paramsFrom_eq (ts ++ opener :: tail)]
  have hc : Reading.Continued opener tail (param ts) (param (ts ++ opener :: tail)) := fenced_param h ts
  generalize hr : param ts = r at hc
  generalize param (ts ++ opener :: tail) = s at hc
  cases hc with
  | ok p rest =>
    have hlt := consumes_param ts p rest hr
    rw [Reading.bind_ok, Reading.bind_ok, sees_append h]
    split
    next hcomma =>
      obtain ⟨t, rest, rfl, -⟩ := exists_cons_of_sees hcomma
      exact (fenced_paramsFrom rest).map (p :: ·)
    next => exact (fenced_symbol h closeParen rest).map fun _ => [p]
  | unexpected wanted found rest => exact .unexpected wanted found rest
  | endOfInput wanted rest => exact .endOfInput wanted rest
termination_by ts => ts.length
decreasing_by
  simp at hlt
  omega

theorem fenced_params : Fenced opener tail params := by
  refine (fenced_symbol h openParen).bind fun _ ts => ?_
  simp only [sees_append h]
  split
  next hclose =>
    obtain ⟨t, ts, rfl, -⟩ := exists_cons_of_sees hclose
    exact .ok [] ts
  next => exact fenced_paramsFrom h ts

omit h in
theorem clauses_cons (t : Token) (ts : List Token) :
    clauses (t :: ts) =
      if t.isSymbol closeBrace then .ok {} ts
      else if !t.isKeyword then .error (.unexpected .keyword t) ts
      else if t.text == distinctKeyword then
        (clauses (ts.dropWhile Token.isWord)).map (·.separate (ts.takeWhile Token.isWord))
      else if t.text == hypothesisKeyword then
        (exprs ts).bind fun es rest => (clauses rest).map (·.assume es)
      else if t.text == conclusionKeyword then
        (exprs ts).bind fun es rest => (clauses rest).map (·.conclude es)
      else .error (.unexpected .clause t) ts := by
  rw [clauses]
  repeat' split
  all_goals simp [*]

/-- A clause that lists expressions, given that the clauses behind it are fenced. -/
theorem exprs_clause_continued {ts : List Token} (f : List Expr → Clauses → Clauses)
    (hrest : ∀ rest, rest.length ≤ ts.length →
      (clauses rest).Continued opener tail (clauses (rest ++ opener :: tail))) :
    ((exprs ts).bind fun es rest => (clauses rest).map (f es)).Continued opener tail
      ((exprs (ts ++ opener :: tail)).bind fun es rest => (clauses rest).map (f es)) := by
  have hc : Reading.Continued opener tail (exprs ts) (exprs (ts ++ opener :: tail)) := fenced_exprs h ts
  generalize hr : exprs ts = r at hc
  generalize exprs (ts ++ opener :: tail) = s at hc
  cases hc with
  | ok es rest => exact (hrest rest (shrinks_exprs ts es rest hr)).map (f es)
  | unexpected wanted found rest => exact .unexpected wanted found rest
  | endOfInput wanted rest => exact .endOfInput wanted rest

/-- By induction on the number of tokens, as each clause takes its keyword. The opener is a keyword,
but not one of a clause. -/
theorem fenced_clauses : Fenced opener tail clauses := by
  intro ts
  match ts with
  | [] =>
    have hne := Token.text_ne_of_declKind? h
    rw [clauses, List.nil_append, clauses_cons]
    simpa [Token.isSymbol_of_declKind? h, Token.isKeyword_of_declKind? h, hne]
      using .endOfInput .clause []
  | t :: ts =>
    rw [List.cons_append, clauses_cons, clauses_cons, dropWhile_isWord_append h,
      takeWhile_isWord_append h]
    split
    · exact .ok ({} : Clauses) ts
    split
    · exact .unexpected .keyword t ts
    split
    · have hle := (List.dropWhile_suffix (l := ts) Token.isWord).length_le
      exact (fenced_clauses (ts.dropWhile Token.isWord)).map _
    split
    · exact exprs_clause_continued h (fun es c => c.assume es) fun rest hle => fenced_clauses rest
    split
    · exact exprs_clause_continued h (fun es c => c.conclude es) fun rest hle => fenced_clauses rest
    · exact .unexpected .clause t ts
termination_by ts => ts.length
decreasing_by all_goals simp; omega

/-- A body without its brace ends at the opener, as it cannot have keywords in it. -/
theorem fenced_body : Fenced opener tail body := by
  intro ts
  induction ts with
  | nil =>
    simpa [body, Token.isSymbol_of_declKind? h, Token.isKeyword_of_declKind? h]
      using .endOfInput .bodyToken []
  | cons t ts ih =>
    simp only [List.cons_append, body]
    split
    · exact .ok [] ts
    split
    · exact .unexpected .bodyToken t ts
    · exact ih.map (t :: ·)

/-- Names of types end at the opener, as it is not a word. -/
theorem fenced_typeNames (keyword : Token) : Fenced opener tail (typeNames keyword) := by
  intro ts
  simp only [typeNames, takeWhile_isWord_append h, dropWhile_isWord_append h]
  split
  · exact .unexpected .typeName keyword ts
  · exact .ok _ _

theorem fenced_termDecl : Fenced opener tail termDecl :=
  (fenced_word h).bind fun _ => (fenced_name h).bind fun _ => (fenced_params h).bind fun _ =>
    (fenced_symbol h _).bind fun _ => (fenced_body h).bind fun _ => fenced_pure _

theorem fenced_statement : Fenced opener tail statement :=
  (fenced_name h).bind fun _ => (fenced_params h).bind fun _ => (fenced_symbol h _).bind fun _ =>
    (fenced_clauses h).bind fun _ => fenced_pure _

theorem fenced_thmDecl : Fenced opener tail thmDecl :=
  (fenced_statement h).bind fun _ => (fenced_exactly h _).bind fun _ =>
    (fenced_symbol h _).bind fun _ => (fenced_exprs h).bind fun _ => (fenced_symbol h _).bind fun _ =>
      fenced_pure _

/-- A declaration is fenced behind its own first token, which may well be an opener. -/
theorem fenced_decl_cons (t : Token) : Fenced opener tail fun ts => decl (t :: ts) := by
  intro ts
  simp only [decl, bind_apply, keyword, demand]
  split
  · simp only [Reading.bind_ok]
    cases t.declKind? with
    | none => exact .unexpected .declaration t ts
    | some kind =>
      cases kind with
      | type => exact fenced_typeNames h t ts
      | term => exact fenced_termDecl h ts
      | postulate => exact (fenced_statement h).bind (fun _ => fenced_pure _) ts
      | thm => exact fenced_thmDecl h ts
  · exact .unexpected .keyword t ts

end Readers

end Reader

/-! ## All declarations of a text -/

namespace Outline

open Reader

variable {opener : Token} {tail : List Token}

/-- A declaration that cannot be read is passed over, up to the next token that opens one. -/
theorem ofTokens_cons (t : Token) (ts : List Token) :
    ofTokens (t :: ts) =
      match decl (t :: ts) with
      | .ok d rest => (ofTokens rest).declare d
      | .error cause _ => (ofTokens (ts.dropWhile (·.declKind?.isNone))).report cause := by
  rw [ofTokens]
  split <;> simp [*]

/-- The place where reading goes on does not depend on what is behind an opener. -/
theorem dropWhile_declKind?_append (h : opener.declKind?.isSome) (ts : List Token) :
    (ts ++ opener :: tail).dropWhile (·.declKind?.isNone) =
      ts.dropWhile (·.declKind?.isNone) ++ opener :: tail := by
  induction ts with
  | nil => simp [Option.isSome_iff_ne_none.mp h]
  | cons t ts ih =>
    simp only [List.cons_append, List.dropWhile_cons, ih]
    split <;> rfl

/-- Only a declaration with no other behind it runs out of tokens. -/
theorem dropWhile_eq_nil_of_endOfInput {t : Token} {ts rest : List Token}
    (h : decl (t :: ts) = .error .endOfInput rest) : ts.dropWhile (·.declKind?.isNone) = [] := by
  cases hd : ts.dropWhile (·.declKind?.isNone) with
  | nil => rfl
  | cons next tail =>
    have hnext : next.declKind?.isSome := by
      have hhead := List.head?_dropWhile_not (fun t : Token => t.declKind?.isNone) ts
      rw [hd] at hhead
      simpa [Option.isSome_iff_ne_none] using hhead
    have hts : ts.takeWhile (·.declKind?.isNone) ++ next :: tail = ts := by
      rw [← hd, List.takeWhile_append_dropWhile]
    rw [← hts] at h
    exact absurd h ((fenced_decl_cons hnext t).ne_endOfInput _ rest)

/-- How the errors of a text change when a declaration comes behind it. Running out of tokens can
only be the last error, and is noticed at the token that opens the declaration. -/
inductive Noticed (opener : Token) : List ParseError → List ParseError → Prop
  | same (es : List ParseError) : Noticed opener es es
  | last (es : List ParseError) (wanted : Expectation) :
    Noticed opener (es ++ [.endOfInput]) (es ++ [.unexpected wanted opener])

/-- An error in front of the others is the same for both texts. -/
theorem Noticed.cons {es es' : List ParseError} (e : ParseError) (h : Noticed opener es es') :
    Noticed opener (e :: es) (e :: es') := by
  cases h with
  | same es => exact .same (e :: es)
  | last es wanted => exact .last (e :: es) wanted

/-- No error is lost or added. -/
theorem Noticed.length_eq {es es' : List ParseError} (h : Noticed opener es es') :
    es'.length = es.length := by
  cases h <;> simp

/-- By induction on the number of tokens. A declaration that is read leaves fewer of them, and so
does one that is passed over. -/
theorem ofTokens_append (h : opener.declKind?.isSome) (ts : List Token) :
    (ofTokens (ts ++ opener :: tail)).decls =
        (ofTokens ts).decls ++ (ofTokens (opener :: tail)).decls ∧
      ∃ es, Noticed opener (ofTokens ts).errors es ∧
        (ofTokens (ts ++ opener :: tail)).errors = es ++ (ofTokens (opener :: tail)).errors := by
  match ts with
  | [] => exact ⟨by simp [ofTokens], [], by simpa [ofTokens] using .same [], rfl⟩
  | t :: ts =>
    have hc : Reading.Continued opener tail (decl (t :: ts)) (decl (t :: (ts ++ opener :: tail))) :=
      fenced_decl_cons h t ts
    rw [List.cons_append, ofTokens_cons t ts, ofTokens_cons t (ts ++ opener :: tail),
      dropWhile_declKind?_append h]
    generalize hr : decl (t :: ts) = r at hc
    generalize decl (t :: (ts ++ opener :: tail)) = s at hc
    cases hc with
    | ok d rest =>
      have hlt := consumes_decl _ d rest hr
      obtain ⟨hdecls, es, hes, herrors⟩ := ofTokens_append h rest
      exact ⟨by simp [declare, hdecls], es, hes, herrors⟩
    | unexpected wanted found rest =>
      have hle := (List.dropWhile_suffix (l := ts) (·.declKind?.isNone)).length_le
      obtain ⟨hdecls, es, hes, herrors⟩ :=
        ofTokens_append h (ts.dropWhile (·.declKind?.isNone))
      exact ⟨hdecls, _ :: es, hes.cons _, by simp [report, herrors]⟩
    | endOfInput wanted rest =>
      rw [dropWhile_eq_nil_of_endOfInput hr]
      refine ⟨by simp [report, ofTokens], [.unexpected wanted opener], ?_, by simp [report]⟩
      simpa [report, ofTokens] using .last [] wanted
termination_by ts.length
decreasing_by
  all_goals
    simp only [List.length_cons] at *
    omega

/-- Reading a text with a declaration behind it gives the declarations of the text and those behind
it, and as many errors as both give. Comments may stand anywhere. -/
theorem ofTokens_append_declaration (as bs : List Token) (h : opener.declKind?.isSome) :
    let read := fun ts : List Token => ofTokens (ts.filter (!·.isComment))
    (read (as ++ opener :: bs)).decls = (read as).decls ++ (read (opener :: bs)).decls ∧
      ∃ es, (read (as ++ opener :: bs)).errors = es ++ (read (opener :: bs)).errors ∧
        es.length = (read as).errors.length ∧ Noticed opener (read as).errors es := by
  intro read
  have hsplit : (opener :: bs).filter (!·.isComment) = opener :: bs.filter (!·.isComment) := by
    simp [Token.isComment_of_declKind? h]
  simp only [read, List.filter_append, hsplit]
  obtain ⟨hdecls, es, hes, herrors⟩ := ofTokens_append h (as.filter (!·.isComment))
  exact ⟨hdecls, es, herrors, hes.length_eq, hes⟩

/-- A constructor without a body, a comment, and a type behind them. -/
theorem ofTokens_append_declaration_unfinished_term :
    let read := fun ts : List Token => ofTokens (ts.filter (!·.isComment))
    let as : List Token :=
      [⟨.keyword, "TERM", ⟨0, 4⟩⟩, ⟨.word, "Prop", ⟨5, 9⟩⟩, ⟨.comment, "// top", ⟨10, 16⟩⟩]
    let opener : Token := ⟨.keyword, "type", ⟨17, 21⟩⟩
    let bs : List Token := [⟨.word, "Set", ⟨22, 25⟩⟩]
    opener.declKind?.isSome ∧
      (read (as ++ opener :: bs)).decls = (read as).decls ++ (read (opener :: bs)).decls ∧
      ∃ es, (read (as ++ opener :: bs)).errors = es ++ (read (opener :: bs)).errors ∧
        es.length = (read as).errors.length ∧ Noticed opener (read as).errors es :=
  ⟨by decide, ofTokens_append_declaration _ _ (by decide)⟩

end Outline

end Axiomata
