import Axiomata.Proofs.Decomposition
import Axiomata.Proofs.Grammar
import Axiomata.Proofs.Recovery
import Mathlib.Data.List.TakeWhile

/-!
# Reading follows the grammar

A reader is sound for a kind of phrase if what it reads is spelled by the tokens it takes
(`Reader.Sound`), and complete if it reads every phrase of that kind that is not followed by something
that could belong to it (`Reader.Complete`). All readers are both. So a text is read without errors if
and only if it is derivable, and then what is read is what is derived.

The stack of open applications is dealt with first: an expression within open applications is an
expression by itself, after which the applications are gone on with (`Reader.exprWithin_append`).
-/

namespace Axiomata

open Phrase

namespace Token

variable {t : Token}

theorem kind_of_isSymbol {text : String} (h : t.isSymbol text) : t.kind = .separator := by
  simp only [isSymbol, Bool.and_eq_true, beq_iff_eq] at h
  exact h.1

/-- A separator is not a word. -/
theorem isWord_of_isSymbol {text : String} (h : t.isSymbol text) : t.isWord = false := by
  simp [isWord, kind_of_isSymbol h]

/-- A word is not a separator. -/
theorem isSymbol_of_isWord (h : t.isWord) (text : String) : t.isSymbol text = false := by
  rw [isWord, beq_iff_eq] at h
  simp [isSymbol, h]

/-- A separator is only one separator. -/
theorem isSymbol_of_ne {a b : String} (h : t.isSymbol a) (hne : a ≠ b) : t.isSymbol b = false := by
  simp only [isSymbol, Bool.and_eq_true, beq_iff_eq] at h
  simp [isSymbol, h.2, hne]

theorem isKey_iff {text : String} : t.IsKey text ↔ t.isKeyword ∧ t.text = text := by
  simp [IsKey, isKeyword]

/-- A keyword is not a word. -/
theorem IsKey.isWord {text : String} (h : t.IsKey text) : t.isWord = false := by
  simp [Token.isWord, h.1]

/-- A keyword is not a separator. -/
theorem IsKey.isSymbol {text : String} (h : t.IsKey text) (symbol : String) :
    t.isSymbol symbol = false := by
  simp [Token.isSymbol, h.1]

/-- A keyword is read as that of a declaration if and only if it opens one. -/
theorem declKind?_eq_some_iff {kind : DeclKind} : t.declKind? = some kind ↔ t.Opens kind := by
  have htext : DeclKind.ofText? t.text = some kind ↔ lowercase t.text = kind.keyword := by
    rw [DeclKind.ofText?]
    constructor
    · intro h
      have hkind := List.find?_some h
      exact (beq_iff_eq.mp hkind).symm
    · intro h
      rw [h]
      cases kind <;> rfl
  simp [declKind?, Opens, isKeyword, htext]

/-- Of the words that are keywords, those in lower case and those in upper case open declarations. -/
theorem lowercase_eq_keyword_iff {text : String} (h : Axiomata.isKeyword text) (kind : DeclKind) :
    lowercase text = kind.keyword ↔ text ∈ kind.spellings := by
  simp only [Axiomata.isKeyword, Bool.or_eq_true, List.contains_iff_mem, beq_iff_eq] at h
  have hall : ∀ text ∈ ["type", "term", "axiom", "thm", "TYPE", "TERM", "AXIOM", "THM",
      hypothesisKeyword, conclusionKeyword, distinctKeyword],
      lowercase text = kind.keyword ↔ text ∈ kind.spellings := by
    cases kind <;> decide
  refine hall text ?_
  simpa [or_assoc] using h

/-- In a text, the keyword of a declaration is written in lower or in upper case. -/
theorem opens_iff_of_mem_tokens {s : Source} (ht : t ∈ s.tokens) (kind : DeclKind) :
    t.Opens kind ↔ t.kind = .keyword ∧ t.text ∈ kind.spellings := by
  refine and_congr_right fun hkey => lowercase_eq_keyword_iff ?_ kind
  obtain ⟨_, _, -, -, hlexeme⟩ := Source.exists_lexeme ht
  rw [← String.ofList_toList (s := t.text)]
  generalize t.text.toList = text at hlexeme
  rw [hkey] at hlexeme
  generalize hkind : TokenKind.keyword = kind at hlexeme
  cases hlexeme with
  | lineComment => cases hkind
  | blockComment => cases hkind
  | separator => cases hkind
  | word =>
    split at hkind
    · assumption
    · cases hkind

end Token

namespace Reader

variable {α β : Type} {P : Phrase α}

/-- What is read is spelled by the tokens that are taken. -/
def Sound (P : Phrase α) (p : Reader α) : Prop :=
  ∀ ts a rest, p ts = .ok a rest → ∃ us, ts = us ++ rest ∧ P a us

/-- What is spelled is read, given that what follows does not go on with it. -/
def Complete (P : Phrase α) (stops : List Token → Prop) (p : Reader α) : Prop :=
  ∀ a us rest, P a us → stops rest → p (us ++ rest) = .ok a rest

/-- Two readers in turn succeed only if both do. -/
theorem bind_eq_ok {p : Reader α} {f : α → Reader β} {ts rest : List Token} {b : β}
    (h : (p >>= f) ts = .ok b rest) : ∃ a mid, p ts = .ok a mid ∧ f a mid = .ok b rest := by
  rw [bind_apply] at h
  cases hp : p ts with
  | ok a mid =>
    rw [hp, Reading.bind_ok] at h
    exact ⟨a, mid, rfl, h⟩
  | error e mid => simp [hp] at h

/-- The second reader goes on where the first one stopped. -/
theorem bind_of_ok {p : Reader α} {f : α → Reader β} {ts mid : List Token} {a : α}
    (h : p ts = .ok a mid) : (p >>= f) ts = f a mid := by
  rw [bind_apply, h, Reading.bind_ok]

/-- What is demanded is the first token, if it passes the test. -/
theorem demand_eq_ok {wanted : Expectation} {test : Token → Bool} {ts rest : List Token} {t : Token}
    (h : demand wanted test ts = .ok t rest) : ts = t :: rest ∧ test t := by
  cases ts with
  | nil => simp [demand] at h
  | cons t ts =>
    rw [demand] at h
    split at h
    · cases h
      exact ⟨rfl, ‹_›⟩
    · simp at h

theorem demand_cons {wanted : Expectation} {test : Token → Bool} {t : Token} (h : test t)
    (ts : List Token) : demand wanted test (t :: ts) = .ok t ts := by
  rw [demand, if_pos h]

theorem word_cons {t : Token} (h : t.isWord) (ts : List Token) : word (t :: ts) = .ok t ts :=
  demand_cons h ts

theorem name_cons {t : Token} (h : t.isName) (ts : List Token) : name (t :: ts) = .ok t ts :=
  demand_cons h ts

theorem symbol_cons {t : Token} {text : String} (h : t.isSymbol text) (ts : List Token) :
    symbol text (t :: ts) = .ok t ts :=
  demand_cons h ts

theorem exactly_cons {t : Token} {text : String} (h : t.isWord ∧ t.text = text) (ts : List Token) :
    exactly text (t :: ts) = .ok t ts :=
  demand_cons (by simpa using h) ts

/-! ## What comes next -/

theorem sees_cons {t : Token} (text : String) (ts : List Token) :
    sees text (t :: ts) = t.isSymbol text := rfl

theorem seesWord_cons {t : Token} (ts : List Token) : seesWord (t :: ts) = t.isWord := rfl

/-- What no expression goes on with: neither arguments of a name nor another expression. -/
def Breaks (ts : List Token) : Prop := seesWord ts = false ∧ sees openParen ts = false

/-- Only an opening bracket goes on with an expression. -/
theorem breaks_of_isSymbol {t : Token} {text : String} (h : t.isSymbol text)
    (hne : text ≠ openParen) (ts : List Token) : Breaks (t :: ts) :=
  ⟨Token.isWord_of_isSymbol h, Token.isSymbol_of_ne h hne⟩

/-- A keyword does not go on with an expression. -/
theorem breaks_of_isKey {t : Token} {text : String} (h : t.IsKey text) (ts : List Token) :
    Breaks (t :: ts) :=
  ⟨h.isWord, h.isSymbol _⟩

/-! ## Words -/

/-- There are no words to take if there is none in front. -/
theorem takeWhile_isWord_of_seesWord {rest : List Token} (h : seesWord rest = false) :
    rest.takeWhile Token.isWord = [] ∧ rest.dropWhile Token.isWord = rest := by
  cases rest with
  | nil => exact ⟨rfl, rfl⟩
  | cons t ts =>
    rw [seesWord_cons] at h
    simp [h]

/-- Words are taken up to the first token that is none. -/
theorem takeWhile_isWord_words {ws rest : List Token} (hws : ∀ w ∈ ws, w.isWord)
    (h : seesWord rest = false) : (ws ++ rest).takeWhile Token.isWord = ws := by
  rw [List.takeWhile_append_of_pos hws, (takeWhile_isWord_of_seesWord h).1, List.append_nil]

/-- What is left behind words starts with the first token that is none. -/
theorem dropWhile_isWord_words {ws rest : List Token} (hws : ∀ w ∈ ws, w.isWord)
    (h : seesWord rest = false) : (ws ++ rest).dropWhile Token.isWord = rest := by
  rw [List.dropWhile_append_of_pos hws, (takeWhile_isWord_of_seesWord h).2]

/-! ## Expressions -/

mutual

/-- An expression within open applications is read like one by itself. By induction on the number of
tokens, along with `resume_append`. -/
theorem exprWithin_append (inner outer : List Frame) (ts : List Token) :
    exprWithin (inner ++ outer) ts = (exprWithin inner ts).bind (resume outer) := by
  match ts with
  | [] => simp [exprWithin]
  | t :: ts =>
    rw [exprWithin, exprWithin]
    split
    · split
      · split
        · exact resume_append inner outer _ _
        · exact exprWithin_append (_ :: inner) outer _
      · exact resume_append inner outer _ _
    · rfl
termination_by ts.length

/-- Applications that are open one inside the other are closed from the inside. The inner ones can
be closed first, and the outer ones with what they give. -/
theorem resume_append (inner outer : List Frame) (e : Expr) (ts : List Token) :
    resume (inner ++ outer) e ts = (resume inner e ts).bind (resume outer) := by
  match inner, ts with
  | [], ts => rw [List.nil_append, resume.eq_def [], Reading.bind_ok]
  | f :: inner, [] => simp [resume]
  | f :: inner, t :: ts =>
    rw [List.cons_append, resume, resume]
    split
    · exact exprWithin_append (_ :: inner) outer ts
    · split
      · exact resume_append inner outer _ ts
      · rfl
termination_by ts.length

end

/-- The arguments of an application are read one by one. -/
theorem exprWithin_singleton (f : Frame) (ts : List Token) :
    exprWithin [f] ts = (expr ts).bind (resume [f]) :=
  exprWithin_append [] [f] ts

theorem resume_nil (e : Expr) (ts : List Token) : resume [] e ts = .ok e ts := by
  rw [resume]

/-- Expressions start with a word. -/
theorem spelled_isWord {e : Expr} {us : List Token} (h : e.Spelled us) :
    ∃ w vs, us = w :: vs ∧ w.isWord := by
  cases h with
  | bare hw => exact ⟨_, _, rfl, hw⟩
  | applied hw _ => exact ⟨_, _, rfl, hw⟩

/-- So do several of them. -/
theorem separated_isWord {es : List Expr} {us : List Token} (h : Separated Expr.Spelled es us) :
    ∃ w vs, us = w :: vs ∧ w.isWord := by
  cases h with
  | one ha => exact spelled_isWord ha
  | more ha _ _ =>
    obtain ⟨w, vs, rfl, hw⟩ := spelled_isWord ha
    exact ⟨w, _, rfl, hw⟩

mutual

/-- By induction on the number of tokens. The arguments of an application start behind its name. -/
theorem sound_expr (ts : List Token) {e : Expr} {rest : List Token} (h : expr ts = .ok e rest) :
    ∃ us, ts = us ++ rest ∧ e.Spelled us := by
  match ts with
  | [] => simp [expr, exprWithin] at h
  | w :: ts =>
    rw [expr, exprWithin] at h
    split at h
    next hw =>
      split at h
      next hopen =>
        obtain ⟨o, ts, rfl, ho⟩ := exists_cons_of_sees hopen
        rw [List.drop_succ_cons, List.drop_zero] at h
        split at h
        next hclose =>
          obtain ⟨c, ts, rfl, hc⟩ := exists_cons_of_sees hclose
          rw [resume_nil] at h
          cases h
          exact ⟨[w, o, c], rfl, .applied hw (.none ho hc)⟩
        next =>
          obtain ⟨es, us, c, hc, rfl, hes, rfl⟩ := sound_args { root := w } ts h
          exact ⟨w :: o :: (us ++ [c]), by simp, .applied hw (.some ho hes hc)⟩
      next =>
        rw [resume_nil] at h
        cases h
        exact ⟨[w], rfl, .bare hw⟩
    next => simp at h
termination_by (ts.length, 0)

/-- The arguments that close an application are spelled in front of its bracket. -/
theorem sound_args (f : Frame) (ts : List Token) {e : Expr} {rest : List Token}
    (h : exprWithin [f] ts = .ok e rest) :
    ∃ es us c, c.isSymbol closeParen ∧ ts = us ++ c :: rest ∧ Separated Expr.Spelled es us ∧
      e = .node f.root (f.args.reverse ++ es) := by
  rw [exprWithin_singleton] at h
  cases hr : expr ts with
  | error cause mid => simp [hr] at h
  | ok a mid =>
    obtain ⟨us, hts, ha⟩ := sound_expr ts hr
    rw [hr, Reading.bind_ok] at h
    match mid with
    | [] => simp [resume] at h
    | t :: mid =>
      rw [resume] at h
      split at h
      next hcomma =>
        have hlt : mid.length < ts.length := by
          have hlt := consumes_expr ts a _ hr
          rw [List.length_cons] at hlt
          omega
        obtain ⟨es, vs, c, hc, rfl, hes, rfl⟩ := sound_args (f.push a) mid h
        exact ⟨a :: es, us ++ t :: vs, c, hc, by simp [hts], .more ha hcomma hes, by simp [Frame.push]⟩
      next =>
        split at h
        next hclose =>
          rw [resume_nil] at h
          cases h
          exact ⟨[a], us, t, hclose, hts, .one ha, by simp [Frame.push, Frame.toExpr]⟩
        next => simp at h
termination_by (ts.length, 1)

end

/-- Arguments that are spelled are read, if each of them is. -/
theorem complete_args {es : List Expr}
    (ih : ∀ e ∈ es, ∀ us rest, e.Spelled us → sees openParen rest = false →
      expr (us ++ rest) = .ok e rest)
    {us : List Token} (h : Separated Expr.Spelled es us) (f : Frame) {c : Token}
    (hc : c.isSymbol closeParen) (rest : List Token) :
    exprWithin [f] (us ++ c :: rest) = .ok (.node f.root (f.args.reverse ++ es)) rest := by
  induction h generalizing f with
  | one ha =>
    have hnext : sees openParen (c :: rest) = false := Token.isSymbol_of_ne hc (by decide)
    have hcomma : c.isSymbol comma = false := Token.isSymbol_of_ne hc (by decide)
    rw [exprWithin_singleton, ih _ (by simp) _ _ ha hnext, Reading.bind_ok, resume]
    simp [hcomma, hc, resume_nil, Frame.push, Frame.toExpr]
  | @more e es us vs k ha hk _ ih' =>
    rw [List.forall_mem_cons] at ih
    have hnext : sees openParen (k :: (vs ++ c :: rest)) = false :=
      Token.isSymbol_of_ne hk (by decide)
    rw [List.append_assoc, List.cons_append, exprWithin_singleton, ih.1 _ _ ha hnext,
      Reading.bind_ok, resume, if_pos hk, ih' ih.2 (f.push e)]
    simp [Frame.push]

/-- By induction on the expression. -/
theorem complete_expr (e : Expr) : ∀ us rest, e.Spelled us → sees openParen rest = false →
    expr (us ++ rest) = .ok e rest := by
  induction e with
  | node w es ih =>
    intro us rest h hrest
    cases h with
    | bare hw =>
      rw [expr, List.singleton_append, exprWithin, if_pos hw, if_neg (by simp [hrest]), resume_nil]
    | applied hw hes =>
      cases hes with
      | none ho hc =>
        rw [expr, List.cons_append, exprWithin, if_pos hw]
        simp [sees_cons, ho, hc, resume_nil]
      | @some _ ts o c ho hes hc =>
        obtain ⟨v, vs, rfl, hv⟩ := separated_isWord hes
        have hclose : sees closeParen (v :: vs ++ c :: rest) = false := Token.isSymbol_of_isWord hv _
        have hargs := complete_args ih hes { root := w } hc rest
        simp only [List.cons_append, List.append_assoc, List.nil_append] at hclose hargs ⊢
        rw [expr, exprWithin, if_pos hw, if_pos (by simpa [sees_cons] using ho)]
        simpa [hclose] using hargs

/-- Expressions in a row do not start with a bracket, so they do not go on with one in front of
them. -/
theorem many_spelled_seesOpen {es : List Expr} {us : List Token} (h : Many Expr.Spelled es us)
    {rest : List Token} (hrest : sees openParen rest = false) : sees openParen (us ++ rest) = false := by
  cases h with
  | nil => exact hrest
  | cons ha _ =>
    obtain ⟨w, vs, rfl, hw⟩ := spelled_isWord ha
    exact Token.isSymbol_of_isWord hw _

/-- Expressions in a row are spelled one after the other. -/
theorem sound_exprs : Sound (Many Expr.Spelled) exprs := by
  intro ts es rest h
  fun_induction exprs ts generalizing es with
  | case1 => simp at h
  | case2 ts _ e mid hmid ih =>
    obtain ⟨es', hes, rfl⟩ := Reading.map_eq_ok h
    obtain ⟨us, rfl, he⟩ := sound_expr ts hmid
    obtain ⟨vs, rfl, hvs⟩ := ih es' hes
    exact ⟨us ++ vs, by simp, .cons he hvs⟩
  | case3 =>
    cases h
    exact ⟨[], rfl, .nil⟩

/-- Expressions in a row are all read, up to what is neither a word nor an opening bracket. -/
theorem complete_exprs : Complete (Many Expr.Spelled) Breaks exprs := by
  intro es us rest h hrest
  induction h with
  | nil =>
    rw [exprs_eq, List.nil_append, if_neg (by simp [hrest.1])]
  | @cons e es us vs he hes ih =>
    obtain ⟨w, ws, rfl, hw⟩ := spelled_isWord he
    have hnext := many_spelled_seesOpen hes hrest.2
    rw [exprs_eq, List.append_assoc, if_pos (by simpa [seesWord_cons] using hw),
      complete_expr e _ _ he hnext, Reading.bind_ok, ih, Reading.map_ok]

/-! ## Parameters -/

/-- A parameter is a type and a name. -/
theorem sound_param : Sound ParamDecl.Spelled param := by
  intro ts p rest h
  obtain ⟨type, ts₁, h₁, h⟩ := bind_eq_ok h
  obtain ⟨name, ts₂, h₂, h⟩ := bind_eq_ok h
  cases h
  obtain ⟨rfl, htype⟩ := demand_eq_ok h₁
  obtain ⟨rfl, hname⟩ := demand_eq_ok h₂
  exact ⟨[type, name], rfl, .mk htype hname⟩

theorem complete_param {p : ParamDecl} {us : List Token} (h : p.Spelled us) (rest : List Token) :
    param (us ++ rest) = .ok p rest := by
  cases h with
  | mk htype hname =>
    rw [param, List.cons_append, bind_of_ok (word_cons htype _), List.cons_append,
      bind_of_ok (word_cons hname _)]
    rfl

/-- Parameters are read up to a closing bracket, with commas between them. -/
theorem sound_paramsFrom (ts : List Token) {ps : List ParamDecl} {rest : List Token}
    (h : paramsFrom ts = .ok ps rest) :
    ∃ us c, c.isSymbol closeParen ∧ ts = us ++ c :: rest ∧ Separated ParamDecl.Spelled ps us := by
  fun_induction paramsFrom ts generalizing ps with
  | case1 => simp at h
  | case2 ts p mid hmid hcomma ih =>
    obtain ⟨ps', hps, rfl⟩ := Reading.map_eq_ok h
    obtain ⟨us, rfl, hp⟩ := sound_param ts p mid hmid
    obtain ⟨k, mid, rfl, hk⟩ := exists_cons_of_sees hcomma
    obtain ⟨vs, c, hc, hmid, hvs⟩ := ih hps
    rw [List.drop_succ_cons, List.drop_zero] at hmid
    exact ⟨us ++ k :: vs, c, hc, by simp [hmid], .more hp hk hvs⟩
  | case3 ts p mid hmid hcomma =>
    obtain ⟨c, hread, rfl⟩ := Reading.map_eq_ok h
    obtain ⟨us, rfl, hp⟩ := sound_param ts p mid hmid
    obtain ⟨rfl, hc⟩ := demand_eq_ok hread
    exact ⟨us, c, hc, rfl, .one hp⟩

/-- Parameters with commas between them are read up to the closing bracket. -/
theorem complete_paramsFrom {ps : List ParamDecl} {us : List Token}
    (h : Separated ParamDecl.Spelled ps us) {c : Token} (hc : c.isSymbol closeParen)
    (rest : List Token) : paramsFrom (us ++ c :: rest) = .ok ps rest := by
  induction h with
  | one hp =>
    have hcomma : sees comma (c :: rest) = false := Token.isSymbol_of_ne hc (by decide)
    rw [paramsFrom_eq, complete_param hp, Reading.bind_ok, if_neg (by simp [hcomma]),
      symbol_cons hc, Reading.map_ok]
  | @more p ps us vs k hp hk _ ih =>
    rw [paramsFrom_eq, List.append_assoc, complete_param hp, Reading.bind_ok, List.cons_append,
      if_pos (by simpa [sees_cons] using hk), List.drop_succ_cons, List.drop_zero, ih, Reading.map_ok]

theorem sound_params : Sound (Bracketed ParamDecl.Spelled) params := by
  intro ts ps rest h
  obtain ⟨o, mid, h₁, h₂⟩ := bind_eq_ok h
  obtain ⟨rfl, ho⟩ := demand_eq_ok h₁
  split at h₂
  next hclose =>
    obtain ⟨c, mid, rfl, hc⟩ := exists_cons_of_sees hclose
    cases h₂
    exact ⟨[o, c], rfl, .none ho hc⟩
  next =>
    obtain ⟨us, c, hc, rfl, hps⟩ := sound_paramsFrom mid h₂
    exact ⟨o :: (us ++ [c]), by simp, .some ho hps hc⟩

/-- Whatever follows, parameters in brackets are read as such. -/
theorem complete_params {ps : List ParamDecl} {us : List Token}
    (h : Bracketed ParamDecl.Spelled ps us) (rest : List Token) :
    params (us ++ rest) = .ok ps rest := by
  cases h with
  | none ho hc =>
    rw [params, List.cons_append, bind_of_ok (symbol_cons ho _)]
    simp [sees_cons, hc]
  | @some _ us o c ho hps hc =>
    -- A parameter comes first, so the list is not closed at once.
    have hclose : sees closeParen (us ++ c :: rest) = false := by
      cases hps with
      | one hp =>
        cases hp with
        | mk htype _ => exact Token.isSymbol_of_isWord htype _
      | more hp _ _ =>
        cases hp with
        | mk htype _ => exact Token.isSymbol_of_isWord htype _
    have hfrom := complete_paramsFrom hps hc rest
    rw [params, List.cons_append, List.append_assoc, List.singleton_append,
      bind_of_ok (symbol_cons ho _)]
    simpa [hclose] using hfrom

/-! ## Clauses and bodies -/

/-- Clauses are read up to a closing brace. -/
theorem sound_clauses (ts : List Token) {cs : Clauses} {rest : List Token}
    (h : clauses ts = .ok cs rest) :
    ∃ us c, c.isSymbol closeBrace ∧ ts = us ++ c :: rest ∧ cs.Spelled us := by
  fun_induction clauses ts generalizing cs with
  | case1 => simp at h
  | case2 t ts hclose =>
    cases h
    exact ⟨[], t, hclose, rfl, .nil⟩
  | case3 => simp at h
  | case4 t ts _ hkey htext ih =>
    obtain ⟨cs', hcs, rfl⟩ := Reading.map_eq_ok h
    obtain ⟨us, c, hc, hrest, hus⟩ := ih hcs
    refine ⟨t :: (ts.takeWhile Token.isWord ++ us), c, hc, ?_, ?_⟩
    · rw [List.cons_append, List.append_assoc, ← hrest, List.takeWhile_append_dropWhile]
    · refine .separate (Token.isKey_iff.mpr ⟨by simpa using hkey, beq_iff_eq.mp htext⟩) ?_ hus
      exact fun w hw => List.mem_takeWhile_imp hw
  | case5 => simp at h
  | case6 t ts _ hkey _ htext es mid hmid ih =>
    obtain ⟨cs', hcs, rfl⟩ := Reading.map_eq_ok h
    obtain ⟨us, rfl, hes⟩ := sound_exprs ts es mid hmid
    obtain ⟨vs, c, hc, rfl, hvs⟩ := ih hcs
    refine ⟨t :: (us ++ vs), c, hc, by simp, .assume ?_ hes hvs⟩
    exact Token.isKey_iff.mpr ⟨by simpa using hkey, beq_iff_eq.mp htext⟩
  | case7 => simp at h
  | case8 t ts _ hkey _ _ htext es mid hmid ih =>
    obtain ⟨cs', hcs, rfl⟩ := Reading.map_eq_ok h
    obtain ⟨us, rfl, hes⟩ := sound_exprs ts es mid hmid
    obtain ⟨vs, c, hc, rfl, hvs⟩ := ih hcs
    refine ⟨t :: (us ++ vs), c, hc, by simp, .conclude ?_ hes hvs⟩
    exact Token.isKey_iff.mpr ⟨by simpa using hkey, beq_iff_eq.mp htext⟩
  | case9 => simp at h

/-- Behind a clause comes another one, or the closing brace. -/
theorem breaks_clauses {cs : Clauses} {us : List Token} (h : cs.Spelled us) {c : Token}
    (hc : c.isSymbol closeBrace) (rest : List Token) : Breaks (us ++ c :: rest) := by
  cases h with
  | nil => exact breaks_of_isSymbol hc (by decide) rest
  | separate hk _ _ => exact breaks_of_isKey hk _
  | assume hk _ _ => exact breaks_of_isKey hk _
  | conclude hk _ _ => exact breaks_of_isKey hk _

/-- All clauses up to the closing brace are read, in whichever order they come. -/
theorem complete_clauses {cs : Clauses} {us : List Token} (h : cs.Spelled us) {c : Token}
    (hc : c.isSymbol closeBrace) (rest : List Token) :
    clauses (us ++ c :: rest) = .ok cs rest := by
  induction h with
  | nil => rw [List.nil_append, clauses_cons, if_pos hc]
  | @separate cs k group us hk hgroup hcs ih =>
    have hnext := (breaks_clauses hcs hc rest).1
    obtain ⟨hkey, htext⟩ := Token.isKey_iff.mp hk
    rw [List.cons_append, List.append_assoc, clauses_cons, takeWhile_isWord_words hgroup hnext,
      dropWhile_isWord_words hgroup hnext, ih]
    simp [hk.isSymbol, hkey, htext, Clauses.separate]
  | @assume cs k es us vs hk hes hcs ih =>
    obtain ⟨hkey, htext⟩ := Token.isKey_iff.mp hk
    rw [List.cons_append, List.append_assoc, clauses_cons,
      complete_exprs es us _ hes (breaks_clauses hcs hc rest)]
    simp [hk.isSymbol, hkey, htext, ih, Clauses.assume, hypothesisKeyword, distinctKeyword]
  | @conclude cs k es us vs hk hes hcs ih =>
    obtain ⟨hkey, htext⟩ := Token.isKey_iff.mp hk
    rw [List.cons_append, List.append_assoc, clauses_cons,
      complete_exprs es us _ hes (breaks_clauses hcs hc rest)]
    simp [hk.isSymbol, hkey, htext, ih, Clauses.conclude, conclusionKeyword, hypothesisKeyword,
      distinctKeyword]

/-- A body is read up to the first brace, and has neither braces nor keywords in it. -/
theorem sound_body (ts : List Token) {b rest : List Token} (h : body ts = .ok b rest) :
    ∃ c, c.isSymbol closeBrace ∧ ts = b ++ c :: rest ∧ ∀ t ∈ b, t.IsBody := by
  fun_induction body ts generalizing b with
  | case1 => simp at h
  | case2 t ts hclose =>
    cases h
    exact ⟨t, hclose, rfl, by simp⟩
  | case3 => simp at h
  | case4 t ts hclose hother ih =>
    obtain ⟨b', hb, rfl⟩ := Reading.map_eq_ok h
    obtain ⟨c, hc, rfl, hbody⟩ := ih hb
    simp only [Bool.or_eq_true, not_or, Bool.not_eq_true] at hclose hother
    exact ⟨c, hc, rfl, List.forall_mem_cons.mpr ⟨⟨hother.1, hclose, hother.2⟩, hbody⟩⟩

/-- Tokens other than braces and keywords are read as a body. -/
theorem complete_body {b : List Token} (h : ∀ t ∈ b, t.IsBody) {c : Token}
    (hc : c.isSymbol closeBrace) (rest : List Token) : body (b ++ c :: rest) = .ok b rest := by
  induction b with
  | nil => rw [List.nil_append, body, if_pos hc]
  | cons t b ih =>
    rw [List.forall_mem_cons] at h
    obtain ⟨⟨hopen, hclose, hkey⟩, hb⟩ := h
    rw [List.cons_append, body, ih hb]
    simp [hopen, hclose, hkey]

/-! ## Declarations -/

/-- A declaration of types has at least one name. -/
theorem sound_typeNames {k : Token} {ts : List Token} {d : Decl} {rest : List Token}
    (h : typeNames k ts = .ok d rest) (hk : k.Opens .type) :
    ∃ us, ts = us ++ rest ∧ d.Spelled (k :: us) := by
  unfold typeNames at h
  split at h
  · simp at h
  · rename_i hne
    cases h
    refine ⟨ts.takeWhile Token.isWord, by simp, .types hk hne fun n hn => ?_⟩
    exact List.mem_takeWhile_imp hn

/-- All words behind the keyword are names of types. -/
theorem complete_typeNames (k : Token) {names rest : List Token} (hne : names ≠ [])
    (hnames : ∀ n ∈ names, n.isWord) (hrest : seesWord rest = false) :
    typeNames k (names ++ rest) = .ok (.types names) rest := by
  cases names with
  | nil => exact absurd rfl hne
  | cons n names =>
    simp only [typeNames, takeWhile_isWord_words hnames hrest, dropWhile_isWord_words hnames hrest]

/-- A statement is a name with parameters and clauses. -/
theorem sound_statement : Sound Statement.Spelled statement := by
  intro ts s rest h
  obtain ⟨name, ts₁, h₁, h⟩ := bind_eq_ok h
  obtain ⟨ps, ts₂, h₂, h⟩ := bind_eq_ok h
  obtain ⟨o, ts₃, h₃, h⟩ := bind_eq_ok h
  obtain ⟨cs, ts₄, h₄, h⟩ := bind_eq_ok h
  cases h
  obtain ⟨rfl, hname⟩ := demand_eq_ok h₁
  obtain ⟨us, rfl, hps⟩ := sound_params _ _ _ h₂
  obtain ⟨rfl, ho⟩ := demand_eq_ok h₃
  obtain ⟨vs, c, hc, rfl, hcs⟩ := sound_clauses _ h₄
  exact ⟨name :: (us ++ o :: (vs ++ [c])), by simp, .mk hname hps ho hcs hc⟩

/-- Whatever follows, a statement is read as such. -/
theorem complete_statement {s : Statement} {us : List Token} (h : s.Spelled us)
    (rest : List Token) : statement (us ++ rest) = .ok s rest := by
  cases h with
  | mk hname hparams ho hcs hc =>
    simp only [List.cons_append, List.append_assoc, List.nil_append]
    rw [statement, bind_of_ok (name_cons hname _), bind_of_ok (complete_params hparams _),
      bind_of_ok (symbol_cons ho _), bind_of_ok (complete_clauses hcs hc rest)]
    rfl

/-- A constructor is read behind its keyword as it is spelled with it. -/
theorem sound_termDecl {ts : List Token} {d : Decl} {rest : List Token}
    (h : termDecl ts = .ok d rest) {k : Token} (hk : k.Opens .term) :
    ∃ us, ts = us ++ rest ∧ d.Spelled (k :: us) := by
  obtain ⟨type, ts₁, h₁, h⟩ := bind_eq_ok h
  obtain ⟨name, ts₂, h₂, h⟩ := bind_eq_ok h
  obtain ⟨ps, ts₃, h₃, h⟩ := bind_eq_ok h
  obtain ⟨o, ts₄, h₄, h⟩ := bind_eq_ok h
  obtain ⟨b, ts₅, h₅, h⟩ := bind_eq_ok h
  cases h
  obtain ⟨rfl, htype⟩ := demand_eq_ok h₁
  obtain ⟨rfl, hname⟩ := demand_eq_ok h₂
  obtain ⟨us, rfl, hps⟩ := sound_params _ _ _ h₃
  obtain ⟨rfl, ho⟩ := demand_eq_ok h₄
  obtain ⟨c, hc, rfl, hb⟩ := sound_body _ h₅
  exact ⟨type :: name :: (us ++ o :: (b ++ [c])), by simp, .term hk htype hname hps ho hb hc⟩

/-- A theorem is read behind its keyword as it is spelled with it. -/
theorem sound_thmDecl {ts : List Token} {d : Decl} {rest : List Token}
    (h : thmDecl ts = .ok d rest) {k : Token} (hk : k.Opens .thm) :
    ∃ us, ts = us ++ rest ∧ d.Spelled (k :: us) := by
  obtain ⟨s, ts₁, h₁, h⟩ := bind_eq_ok h
  obtain ⟨e, ts₂, h₂, h⟩ := bind_eq_ok h
  obtain ⟨o, ts₃, h₃, h⟩ := bind_eq_ok h
  obtain ⟨proof, ts₄, h₄, h⟩ := bind_eq_ok h
  obtain ⟨c, ts₅, h₅, h⟩ := bind_eq_ok h
  cases h
  obtain ⟨us, rfl, hs⟩ := sound_statement _ _ _ h₁
  obtain ⟨rfl, he⟩ := demand_eq_ok h₂
  obtain ⟨rfl, ho⟩ := demand_eq_ok h₃
  obtain ⟨vs, rfl, hproof⟩ := sound_exprs _ _ _ h₄
  obtain ⟨rfl, hc⟩ := demand_eq_ok h₅
  refine ⟨us ++ e :: o :: (vs ++ [c]), by simp, .thm hk hs ?_ ho hproof hc⟩
  simpa using he

/-- What is read as a declaration is spelled by the tokens that are taken. -/
theorem sound_decl : Sound Decl.Spelled decl := by
  intro ts d rest h
  obtain ⟨k, ts₁, h₁, h₂⟩ := bind_eq_ok h
  obtain ⟨rfl, -⟩ := demand_eq_ok h₁
  cases hkind : k.declKind? with
  | none => simp [hkind] at h₂
  | some kind =>
    simp only [hkind] at h₂
    rw [Token.declKind?_eq_some_iff] at hkind
    cases kind with
    | type =>
      obtain ⟨us, rfl, hd⟩ := sound_typeNames h₂ hkind
      exact ⟨k :: us, rfl, hd⟩
    | term =>
      obtain ⟨us, rfl, hd⟩ := sound_termDecl h₂ hkind
      exact ⟨k :: us, rfl, hd⟩
    | postulate =>
      obtain ⟨s, ts₂, h₃, h₄⟩ := bind_eq_ok h₂
      cases h₄
      obtain ⟨us, rfl, hs⟩ := sound_statement _ _ _ h₃
      exact ⟨k :: us, rfl, .postulate hkind hs⟩
    | thm =>
      obtain ⟨us, rfl, hd⟩ := sound_thmDecl h₂ hkind
      exact ⟨k :: us, rfl, hd⟩

/-- What is spelled is read as the declaration that it spells, if no word comes behind it. -/
theorem complete_decl : Complete Decl.Spelled (seesWord · = false) decl := by
  intro d us rest h hrest
  have hopener {k : Token} {kind : DeclKind} (hk : k.Opens kind) (ts : List Token) :
      keyword (k :: ts) = .ok k ts := demand_cons (by simp [Token.isKeyword, hk.1]) ts
  cases h with
  | @types k names hk hne hnames =>
    rw [decl, List.cons_append, bind_of_ok (hopener hk _), Token.declKind?_eq_some_iff.mpr hk]
    exact complete_typeNames k hne hnames hrest
  | @term k type name o c params ps b hk htype hname hparams ho hbody hc =>
    simp only [List.cons_append, List.append_assoc, List.nil_append]
    rw [decl, bind_of_ok (hopener hk _), Token.declKind?_eq_some_iff.mpr hk]
    simp only [termDecl]
    rw [bind_of_ok (word_cons htype _), bind_of_ok (name_cons hname _),
      bind_of_ok (complete_params hparams _), bind_of_ok (symbol_cons ho _),
      bind_of_ok (complete_body hbody hc rest)]
    rfl
  | @postulate k s ts hk hs =>
    rw [decl, List.cons_append, bind_of_ok (hopener hk _), Token.declKind?_eq_some_iff.mpr hk]
    exact bind_of_ok (complete_statement hs rest)
  | @thm k e o c s proof ts us hk hs he ho hproof hc =>
    have hclose := breaks_of_isSymbol hc (by decide) rest
    simp only [List.cons_append, List.append_assoc, List.nil_append]
    rw [decl, bind_of_ok (hopener hk _), Token.declKind?_eq_some_iff.mpr hk]
    simp only [thmDecl]
    rw [bind_of_ok (complete_statement hs _), bind_of_ok (exactly_cons he _),
      bind_of_ok (symbol_cons ho _), bind_of_ok (complete_exprs _ _ _ hproof hclose),
      bind_of_ok (symbol_cons hc _)]
    rfl

end Reader

/-! ## Files -/

namespace Outline

open Reader

/-- If there are no errors, the declarations are spelled by all of the tokens. -/
theorem sound_ofTokens {ts : List Token} (h : (ofTokens ts).errors = []) :
    Many Decl.Spelled (ofTokens ts).decls ts := by
  fun_induction ofTokens ts with
  | case1 => exact .nil
  | case2 t ts d rest hd ih =>
    obtain ⟨us, hus, hspelled⟩ := sound_decl _ d rest hd
    rw [hus]
    exact .cons hspelled (ih h)
  | case3 => simp [report] at h

/-- A declaration does not start with a word, so that it does not go on with the one in front of it.
-/
theorem spelled_opens {d : Decl} {us : List Token} (h : d.Spelled us) :
    ∃ k vs, us = k :: vs ∧ k.isWord = false := by
  have hword {k : Token} {kind : DeclKind} (hk : k.Opens kind) : k.isWord = false := by
    simp [Token.isWord, hk.1]
  cases h with
  | types hk _ _ => exact ⟨_, _, rfl, hword hk⟩
  | term hk => exact ⟨_, _, rfl, hword hk⟩
  | postulate hk _ => exact ⟨_, _, rfl, hword hk⟩
  | thm hk => exact ⟨_, _, rfl, hword hk⟩

/-- Declarations that are spelled one after the other are read, without errors. -/
theorem complete_ofTokens {ds : List Decl} {ts : List Token} (h : Many Decl.Spelled ds ts) :
    ofTokens ts = { decls := ds } := by
  induction h with
  | nil => rw [ofTokens]
  | @cons d ds us vs hd hds ih =>
    have hnext : seesWord vs = false := by
      cases hds with
      | nil => rfl
      | cons hd' _ =>
        obtain ⟨k, ws, rfl, hk⟩ := spelled_opens hd'
        exact hk
    have hread := complete_decl d us vs hd hnext
    obtain ⟨k, ws, rfl, -⟩ := spelled_opens hd
    rw [List.cons_append] at hread ⊢
    rw [ofTokens_cons, hread]
    simp [ih, declare]

/-- Tokens are read without errors if and only if they are derivable, and what is read is what is
derived. So declarations that are written out are read back. Comments may stand anywhere. Keywords may
be in any case, which for the tokens of a text is lower or upper. -/
theorem ofTokens_eq_derivation :
    let significant := fun ts : List Token => ts.filter (!·.isComment)
    (∀ ts, (ofTokens (significant ts)).errors = [] ↔ ∃ ds, Many Decl.Spelled ds (significant ts)) ∧
      (∀ ts ds, Many Decl.Spelled ds (significant ts) →
        ofTokens (significant ts) = { decls := ds }) ∧
      (∀ ds : List Decl, (∀ d ∈ ds, d.WellFormed) →
        ofTokens (significant (ds.flatMap Decl.tokens)) = { decls := ds }) ∧
      ∀ s : Source, ∀ t ∈ s.tokens, ∀ kind : DeclKind,
        t.Opens kind ↔ t.kind = .keyword ∧ t.text ∈ kind.spellings := by
  intro significant
  refine ⟨fun ts => ⟨fun h => ⟨_, sound_ofTokens h⟩, ?_⟩, fun ts ds h => complete_ofTokens h, ?_,
    fun s t ht kind => Token.opens_iff_of_mem_tokens ht kind⟩
  · rintro ⟨ds, hds⟩
    rw [complete_ofTokens hds]
  · intro ds hds
    have hsilent : significant (ds.flatMap Decl.tokens) = ds.flatMap Decl.tokens := by
      have hnone := Token.silent_flatMap.mpr fun d hd => (hds d hd).silent
      exact List.filter_eq_self.mpr fun t ht => by simp [hnone t ht]
    rw [hsilent]
    exact complete_ofTokens (many_flatMap fun d hd => (hds d hd).spelled)

/-- Keywords may be in capitals, brackets may be empty and comments may stand inside of them, but no
comma may stand behind the last parameter. A token that is no keyword in a text may be one by itself. -/
theorem ofTokens_eq_derivation_trailing_comma :
    let tokens := fun text : String => (Source.ofText "text" text).tokens.filter (!·.isComment)
    (∃ ds, Many Decl.Spelled ds (tokens "TYPE P axiom a(/* none */) \x7b \x7d")) ∧
      (¬ ∃ ds, Many Decl.Spelled ds (tokens "TYPE P axiom a(P x,) \x7b \x7d")) ∧
      (∃ ds, Many Decl.Spelled ds [⟨.keyword, "Type", ⟨0, 4⟩⟩, ⟨.word, "A", ⟨5, 6⟩⟩]) ∧
      ¬ ∃ ds, Many Decl.Spelled ds (tokens "Type A") := by
  intro tokens
  have hiff (text : String) := ofTokens_eq_derivation.1 (Source.ofText "text" text).tokens
  refine ⟨?_, ?_, ?_, ?_⟩
  · rw [← hiff]
    decide +kernel
  · rw [← hiff]
    decide +kernel
  · have hmixed := ofTokens_eq_derivation.1 [⟨.keyword, "Type", ⟨0, 4⟩⟩, ⟨.word, "A", ⟨5, 6⟩⟩]
    exact hmixed.mp (by decide +kernel)
  · rw [← hiff]
    decide +kernel

end Outline

end Axiomata
