import Axiomata.Decl.Parser

/-!
# The grammar of declarations

Which tokens spell which declaration, without regard to how declarations are read:

```text
file    := decl*
decl    := 'type' WORD+
         | 'term' WORD name params '{' body* '}'
         | 'axiom' name params '{' clause* '}'
         | 'thm' name params '{' clause* '}' '=' '{' expr* '}'
params  := '(' [WORD WORD (',' WORD WORD)*] ')'
clause  := '#diff' WORD* | '-|' expr* | '|-' expr*
expr    := WORD ['(' [expr (',' expr)*] ')']
name    := WORD | '#diff'
```

A phrase pairs a value with the tokens that spell it, so that a derivation and its parse are one. What
is read from tokens is compared with this in `Axiomata.Proofs.Reading`. Conversely every declaration of
words can be written out (`Decl.tokens`), and is spelled by what is written (`Decl.WellFormed.spelled`).
-/

namespace Axiomata

/-- A kind of phrase: the values that it stands for, each with the tokens that spell it. -/
abbrev Phrase (α : Type) := α → List Token → Prop

namespace Phrase

variable {α : Type}

/-- Any number of phrases. -/
inductive Many (P : Phrase α) : Phrase (List α)
  | nil : Many P [] []
  | cons {a : α} {as : List α} {ts us : List Token} (ha : P a ts) (has : Many P as us) :
    Many P (a :: as) (ts ++ us)

/-- One or more phrases with commas between them. -/
inductive Separated (P : Phrase α) : Phrase (List α)
  | one {a : α} {ts : List Token} (ha : P a ts) : Separated P [a] ts
  | more {a : α} {as : List α} {ts us : List Token} {c : Token} (ha : P a ts)
    (hc : c.isSymbol Reader.comma) (has : Separated P as us) : Separated P (a :: as) (ts ++ c :: us)

/-- Phrases with commas between them, in brackets. There may be none. -/
inductive Bracketed (P : Phrase α) : Phrase (List α)
  | none {o c : Token} (ho : o.isSymbol Reader.openParen) (hc : c.isSymbol Reader.closeParen) :
    Bracketed P [] [o, c]
  | some {as : List α} {ts : List Token} {o c : Token} (ho : o.isSymbol Reader.openParen)
    (has : Separated P as ts) (hc : c.isSymbol Reader.closeParen) :
    Bracketed P as (o :: (ts ++ [c]))

end Phrase

open Phrase

/-- How the keyword of a declaration is written in a text. -/
def DeclKind.spellings : DeclKind → List String
  | .type => ["type", "TYPE"]
  | .term => ["term", "TERM"]
  | .postulate => ["axiom", "AXIOM"]
  | .thm => ["thm", "THM"]

namespace Token

variable (t : Token)

/-- A keyword with the given text. -/
def IsKey (text : String) : Prop := t.kind = .keyword ∧ t.text = text

/-- The keyword of a declaration, in whatever case its letters are. -/
def Opens (kind : DeclKind) : Prop := t.kind = .keyword ∧ lowercase t.text = kind.keyword

/-- What may stand in the body of a constructor. -/
def IsBody : Prop :=
  t.isSymbol Reader.openBrace = false ∧ t.isSymbol Reader.closeBrace = false ∧ t.isKeyword = false

end Token

/-- A name by itself, or with arguments in brackets. -/
inductive Expr.Spelled : Phrase Expr
  | bare {w : Token} (hw : w.isWord) : Spelled (.node w []) [w]
  | applied {w : Token} {es : List Expr} {ts : List Token} (hw : w.isWord)
    (hes : Bracketed Spelled es ts) : Spelled (.node w es) (w :: ts)

/-- The type of a parameter, then its name. -/
inductive ParamDecl.Spelled : Phrase ParamDecl
  | mk {type name : Token} (htype : type.isWord) (hname : name.isWord) :
    Spelled ⟨type, name⟩ [type, name]

/-- Clauses of the three kinds in any order. Each kind is kept in the order in which it is written. -/
inductive Clauses.Spelled : Phrase Clauses
  | nil : Spelled {} []
  | separate {cs : Clauses} {k : Token} {group ts : List Token} (hk : k.IsKey distinctKeyword)
    (hgroup : ∀ w ∈ group, w.isWord) (hcs : Spelled cs ts) :
    Spelled { cs with groups := group :: cs.groups } (k :: (group ++ ts))
  | assume {cs : Clauses} {k : Token} {es : List Expr} {us ts : List Token}
    (hk : k.IsKey hypothesisKeyword) (hes : Many Expr.Spelled es us) (hcs : Spelled cs ts) :
    Spelled { cs with hypotheses := es ++ cs.hypotheses } (k :: (us ++ ts))
  | conclude {cs : Clauses} {k : Token} {es : List Expr} {us ts : List Token}
    (hk : k.IsKey conclusionKeyword) (hes : Many Expr.Spelled es us) (hcs : Spelled cs ts) :
    Spelled { cs with conclusions := es ++ cs.conclusions } (k :: (us ++ ts))

inductive Statement.Spelled : Phrase Statement
  | mk {name o c : Token} {params : List ParamDecl} {cs : Clauses} {ps ts : List Token}
    (hname : name.isName) (hparams : Bracketed ParamDecl.Spelled params ps)
    (ho : o.isSymbol Reader.openBrace) (hcs : cs.Spelled ts) (hc : c.isSymbol Reader.closeBrace) :
    Spelled ⟨name, params, cs⟩ (name :: (ps ++ o :: (ts ++ [c])))

inductive Decl.Spelled : Phrase Decl
  | types {k : Token} {names : List Token} (hk : k.Opens .type) (hne : names ≠ [])
    (hnames : ∀ n ∈ names, n.isWord) : Spelled (.types names) (k :: names)
  | term {k type name o c : Token} {params : List ParamDecl} {ps body : List Token}
    (hk : k.Opens .term) (htype : type.isWord) (hname : name.isName)
    (hparams : Bracketed ParamDecl.Spelled params ps) (ho : o.isSymbol Reader.openBrace)
    (hbody : ∀ t ∈ body, t.IsBody) (hc : c.isSymbol Reader.closeBrace) :
    Spelled (.term type name params body) (k :: type :: name :: (ps ++ o :: (body ++ [c])))
  | postulate {k : Token} {s : Statement} {ts : List Token} (hk : k.Opens .postulate)
    (hs : s.Spelled ts) : Spelled (.postulate s) (k :: ts)
  | thm {k e o c : Token} {s : Statement} {proof : List Expr} {ts us : List Token}
    (hk : k.Opens .thm) (hs : s.Spelled ts) (he : e.isWord ∧ e.text = "=")
    (ho : o.isSymbol Reader.openBrace) (hproof : Many Expr.Spelled proof us)
    (hc : c.isSymbol Reader.closeBrace) :
    Spelled (.thm s proof) (k :: (ts ++ e :: o :: (us ++ [c])))

/-! ## Declarations written out -/

namespace Token

/-- Tokens that are put between others. They stand at no place of a text. -/
def separator (text : String) : Token := ⟨.separator, text, default⟩

def key (text : String) : Token := ⟨.keyword, text, default⟩

@[simp] theorem isSymbol_separator (text : String) : (separator text).isSymbol text = true := by
  simp [separator, isSymbol]

theorem isKey_key (text : String) : (key text).IsKey text := ⟨rfl, rfl⟩

/-- Lists of tokens in brackets, with commas between them. -/
def bracket (tss : List (List Token)) : List Token :=
  separator Reader.openParen :: ([separator Reader.comma].intercalate tss ++
    [separator Reader.closeParen])

/-- Tokens in braces. -/
def brace (ts : List Token) : List Token :=
  separator Reader.openBrace :: (ts ++ [separator Reader.closeBrace])

end Token

mutual

/-- A name without arguments is written without brackets. -/
def Expr.tokens : Expr → List Token
  | .node w [] => [w]
  | .node w (e :: es) => w :: Token.bracket (Expr.tokensEach (e :: es))

def Expr.tokensEach : List Expr → List (List Token)
  | [] => []
  | e :: es => e.tokens :: Expr.tokensEach es

end

def ParamDecl.tokens (p : ParamDecl) : List Token := [p.type, p.name]

/-- Distinct names come first, then hypotheses, then conclusions. -/
def Clauses.tokens (cs : Clauses) : List Token :=
  cs.groups.flatMap (Token.key distinctKeyword :: ·) ++
    (Token.key hypothesisKeyword :: cs.hypotheses.flatMap Expr.tokens) ++
    (Token.key conclusionKeyword :: cs.conclusions.flatMap Expr.tokens)

def Statement.tokens (s : Statement) : List Token :=
  s.name :: (Token.bracket (s.params.map ParamDecl.tokens) ++ Token.brace s.clauses.tokens)

def Decl.tokens : Decl → List Token
  | .types names => Token.key "type" :: names
  | .term type name params body =>
    Token.key "term" :: type :: name ::
      (Token.bracket (params.map ParamDecl.tokens) ++ Token.brace body)
  | .postulate s => Token.key "axiom" :: s.tokens
  | .thm s proof =>
    Token.key "thm" ::
      (s.tokens ++ ⟨.word, "=", default⟩ :: Token.brace (proof.flatMap Expr.tokens))

/-! ## Declarations that can be written out -/

/-- All names are words. -/
inductive Expr.WellFormed : Expr → Prop
  | node {w : Token} {es : List Expr} (hw : w.isWord) (hes : ∀ e ∈ es, WellFormed e) :
    WellFormed (.node w es)

def ParamDecl.WellFormed (p : ParamDecl) : Prop := p.type.isWord ∧ p.name.isWord

structure Clauses.WellFormed (cs : Clauses) : Prop where
  conclusions : ∀ e ∈ cs.conclusions, e.WellFormed
  hypotheses : ∀ e ∈ cs.hypotheses, e.WellFormed
  groups : ∀ group ∈ cs.groups, ∀ w ∈ group, w.isWord

structure Statement.WellFormed (s : Statement) : Prop where
  name : s.name.isName
  params : ∀ p ∈ s.params, p.WellFormed
  clauses : s.clauses.WellFormed

/-- Names are words, or the keyword that is turned down later, and bodies hold nothing that would end
them, and no comments. -/
def Decl.WellFormed : Decl → Prop
  | .types names => names ≠ [] ∧ ∀ n ∈ names, n.isWord
  | .term type name params body =>
    type.isWord ∧ name.isName ∧ (∀ p ∈ params, p.WellFormed) ∧
      ∀ t ∈ body, t.IsBody ∧ t.isComment = false
  | .postulate s => s.WellFormed
  | .thm s proof => s.WellFormed ∧ ∀ e ∈ proof, e.WellFormed

/-! ## What is written spells what it is written for -/

namespace Phrase

variable {α : Type} {P : Phrase α} {f : α → List Token}

/-- Phrases that are written one after the other are many phrases. -/
theorem many_flatMap {as : List α} (h : ∀ a ∈ as, P a (f a)) : Many P as (as.flatMap f) := by
  induction as with
  | nil => exact .nil
  | cons a as ih =>
    rw [List.forall_mem_cons] at h
    rw [List.flatMap_cons]
    exact .cons h.1 (ih h.2)

/-- Phrases that are written with commas between them are separated. -/
theorem separated_intercalate {a : α} {as : List α} (h : ∀ b ∈ a :: as, P b (f b)) :
    Separated P (a :: as) ([Token.separator Reader.comma].intercalate ((a :: as).map f)) := by
  induction as generalizing a with
  | nil => simpa using .one (h a (by simp))
  | cons b as ih =>
    rw [List.forall_mem_cons] at h
    rw [List.map_cons, List.map_cons, List.intercalate_cons_cons, List.append_assoc]
    exact .more h.1 (Token.isSymbol_separator _) (ih h.2)

/-- Phrases that are written in brackets are bracketed, also if there are none. -/
theorem bracketed_bracket {as : List α} (h : ∀ a ∈ as, P a (f a)) :
    Bracketed P as (Token.bracket (as.map f)) := by
  cases as with
  | nil => exact .none (Token.isSymbol_separator _) (Token.isSymbol_separator _)
  | cons a as =>
    exact .some (Token.isSymbol_separator _) (separated_intercalate h) (Token.isSymbol_separator _)

end Phrase

theorem Expr.tokensEach_eq_map (es : List Expr) : tokensEach es = es.map tokens := by
  induction es with
  | nil => rfl
  | cons e es ih => rw [tokensEach, ih, List.map_cons]

/-- An expression of words is spelled by what is written for it. -/
theorem Expr.WellFormed.spelled {e : Expr} (h : e.WellFormed) : e.Spelled e.tokens := by
  induction h with
  | @node w es hw _ ih =>
    cases es with
    | nil => exact .bare hw
    | cons e es =>
      rw [tokens, tokensEach_eq_map]
      exact .applied hw (bracketed_bracket ih)

/-- A parameter is spelled by its type and its name. -/
theorem ParamDecl.WellFormed.spelled {p : ParamDecl} (h : p.WellFormed) : p.Spelled p.tokens :=
  .mk h.1 h.2

/-- Groups of distinct names in front of other clauses. -/
theorem Clauses.Spelled.groups_append {cs : Clauses} {ts : List Token} (h : cs.Spelled ts)
    {groups : List (List Token)} (hgroups : ∀ group ∈ groups, ∀ w ∈ group, w.isWord) :
    Spelled { cs with groups := groups ++ cs.groups }
      (groups.flatMap (Token.key distinctKeyword :: ·) ++ ts) := by
  induction groups with
  | nil => exact h
  | cons group groups ih =>
    rw [List.forall_mem_cons] at hgroups
    rw [List.flatMap_cons, List.append_assoc, List.cons_append]
    exact (ih hgroups.2).separate (Token.isKey_key _) hgroups.1

/-- Clauses are spelled in the order in which they are written, whatever order they were read in. -/
theorem Clauses.WellFormed.spelled {cs : Clauses} (h : cs.WellFormed) : cs.Spelled cs.tokens := by
  have hconclusions : Spelled ({ conclusions := cs.conclusions } : Clauses)
      (Token.key conclusionKeyword :: cs.conclusions.flatMap Expr.tokens) := by
    simpa using Spelled.nil.conclude (Token.isKey_key _)
      (many_flatMap fun e he => (h.conclusions e he).spelled)
  have hhypotheses := hconclusions.assume (Token.isKey_key _)
    (many_flatMap fun e he => (h.hypotheses e he).spelled)
  have hgroups := hhypotheses.groups_append h.groups
  simpa [tokens] using hgroups

/-- A statement is spelled by what is written for it. -/
theorem Statement.WellFormed.spelled {s : Statement} (h : s.WellFormed) : s.Spelled s.tokens :=
  .mk h.name (bracketed_bracket fun p hp => (h.params p hp).spelled) (Token.isSymbol_separator _)
    h.clauses.spelled (Token.isSymbol_separator _)

/-- A declaration is spelled by what is written for it. Keywords are written in lower case. -/
theorem Decl.WellFormed.spelled {d : Decl} (h : d.WellFormed) : d.Spelled d.tokens := by
  have hopens (kind : DeclKind) {text : String} (ht : lowercase text = kind.keyword) :
      (Token.key text).Opens kind := ⟨rfl, ht⟩
  cases d with
  | types names => exact .types (hopens .type (by decide)) h.1 h.2
  | term type name params body =>
    obtain ⟨htype, hname, hparams, hbody⟩ := h
    exact .term (hopens .term (by decide)) htype hname
      (bracketed_bracket fun p hp => (hparams p hp).spelled) (Token.isSymbol_separator _)
      (fun t ht => (hbody t ht).1) (Token.isSymbol_separator _)
  | postulate s => exact .postulate (hopens .postulate (by decide)) (Statement.WellFormed.spelled h)
  | thm s proof =>
    exact .thm (hopens .thm (by decide)) h.1.spelled ⟨rfl, rfl⟩ (Token.isSymbol_separator _)
      (many_flatMap fun e he => (h.2 e he).spelled) (Token.isSymbol_separator _)

/-! ## What is written holds no comments -/

namespace Token

variable {t : Token} {ts us : List Token}

/-- No comments among the tokens. -/
def Silent (ts : List Token) : Prop := ∀ t ∈ ts, t.isComment = false

/-- Words are no comments. -/
theorem isComment_of_isWord (h : t.isWord) : t.isComment = false := by
  rw [isWord, beq_iff_eq] at h
  simp [isComment, h]

/-- Names are no comments. -/
theorem isComment_of_isName (h : t.isName) : t.isComment = false := by
  simp only [isName, isWord, isKeyword, Bool.or_eq_true, Bool.and_eq_true, beq_iff_eq] at h
  rcases h with h | ⟨h, -⟩ <;> simp [isComment, h]

@[simp] theorem isComment_separator (text : String) : (separator text).isComment = false := rfl
@[simp] theorem isComment_key (text : String) : (key text).isComment = false := rfl

/-- There are no comments among words. -/
theorem silent_of_words (h : ∀ t ∈ ts, t.isWord) : Silent ts :=
  fun t ht => isComment_of_isWord (h t ht)

@[simp] theorem silent_nil : Silent [] := by simp [Silent]

@[simp] theorem silent_cons : Silent (t :: ts) ↔ t.isComment = false ∧ Silent ts :=
  List.forall_mem_cons

@[simp] theorem silent_append : Silent (ts ++ us) ↔ Silent ts ∧ Silent us :=
  List.forall_mem_append

@[simp] theorem silent_flatMap {α : Type} {as : List α} {f : α → List Token} :
    Silent (as.flatMap f) ↔ ∀ a ∈ as, Silent (f a) :=
  List.forall_mem_flatMap

/-- Commas add no comments. -/
@[simp] theorem silent_intercalate {tss : List (List Token)} :
    Silent ([separator Reader.comma].intercalate tss) ↔ ∀ ts ∈ tss, Silent ts := by
  induction tss with
  | nil => simp
  | cons ts tss ih =>
    cases tss with
    | nil => simp
    | cons us tss => simp [List.intercalate_cons_cons, ih]

/-- Brackets add no comments. -/
@[simp] theorem silent_bracket {tss : List (List Token)} :
    Silent (bracket tss) ↔ ∀ ts ∈ tss, Silent ts := by
  simp [bracket]

/-- Braces add no comments. -/
@[simp] theorem silent_brace : Silent (brace ts) ↔ Silent ts := by
  simp [brace]

end Token

open Token

/-- An expression is written without comments. -/
theorem Expr.WellFormed.silent {e : Expr} (h : e.WellFormed) : Silent e.tokens := by
  induction h with
  | @node w es hw _ ih =>
    cases es with
    | nil => simpa [tokens] using isComment_of_isWord hw
    | cons e es =>
      rw [tokens, tokensEach_eq_map, silent_cons, silent_bracket, List.forall_mem_map]
      exact ⟨isComment_of_isWord hw, ih⟩

theorem ParamDecl.WellFormed.silent {p : ParamDecl} (h : p.WellFormed) : Silent p.tokens := by
  simp [tokens, isComment_of_isWord h.1, isComment_of_isWord h.2]

/-- Clauses are written without comments. -/
theorem Clauses.WellFormed.silent {cs : Clauses} (h : cs.WellFormed) : Silent cs.tokens := by
  simp only [tokens, silent_append, silent_cons, silent_flatMap, isComment_key, true_and]
  refine ⟨⟨?_, ?_⟩, ?_⟩
  · exact fun group hgroup => silent_of_words (h.groups group hgroup)
  · exact fun e he => (h.hypotheses e he).silent
  · exact fun e he => (h.conclusions e he).silent

/-- A statement is written without comments. -/
theorem Statement.WellFormed.silent {s : Statement} (h : s.WellFormed) : Silent s.tokens := by
  simp only [tokens, silent_cons, silent_append, silent_bracket, silent_brace, List.forall_mem_map]
  exact ⟨isComment_of_isName h.name, fun p hp => (h.params p hp).silent, h.clauses.silent⟩

/-- A declaration is written without comments, so that none of it is lost when comments are dropped.
-/
theorem Decl.WellFormed.silent {d : Decl} (h : d.WellFormed) : Silent d.tokens := by
  cases d with
  | types names => exact silent_cons.mpr ⟨rfl, silent_of_words h.2⟩
  | term type name params body =>
    obtain ⟨htype, hname, hparams, hbody⟩ := h
    simp only [tokens, silent_cons, silent_append, silent_bracket, silent_brace, isComment_key,
      true_and, List.forall_mem_map]
    exact ⟨isComment_of_isWord htype, isComment_of_isName hname, fun p hp => (hparams p hp).silent,
      fun t ht => (hbody t ht).2⟩
  | postulate s => exact silent_cons.mpr ⟨rfl, Statement.WellFormed.silent h⟩
  | thm s proof =>
    simp only [tokens, silent_cons, silent_append, silent_brace, silent_flatMap, isComment_key,
      true_and]
    exact ⟨h.1.silent, rfl, fun e he => (h.2 e he).silent⟩

end Axiomata
