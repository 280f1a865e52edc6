import Axiomata.Proofs.Atomicity
import Axiomata.Proofs.Readability
import Axiomata.Proofs.Reading
import Axiomata.Proofs.Relexing

/-!
# Canonical texts can be read back

The canonical text of a term is an expression for it. An expression of a declaration is spelled by
tokens of the file, in their order (`Source.among_of_uses`), so its words are legible. Written out with
as few brackets as possible it is the canonical text of its term (`Expr.toList_canonical_instantiate`).
From this text the same tokens are cut, and from them the same expression is read, up to the places of
the tokens (`Expr.WellFormed.expr_chars`).
-/

namespace Axiomata

open Phrase

/-! ## Where expressions are spelled -/

namespace Phrase

variable {α : Type} {P : Phrase α} {as : List α} {us vs : List Token} {a : α}

/-- Spelled by some of the tokens, in their order. -/
def Among (P : Phrase α) (a : α) (us : List Token) : Prop := ∃ vs, P a vs ∧ vs.Sublist us

/-- What is spelled among some tokens is spelled among more tokens. -/
theorem Among.mono (h : Among P a us) (hsub : us.Sublist vs) : Among P a vs := by
  obtain ⟨ws, hws, hsub'⟩ := h
  exact ⟨ws, hws, hsub'.trans hsub⟩

/-- Each of many phrases is spelled among their tokens. -/
theorem Many.among (h : Many P as us) (ha : a ∈ as) : Among P a us := by
  induction h with
  | nil => cases ha
  | @cons b bs ts us hb _ ih =>
    rcases List.mem_cons.mp ha with rfl | ha
    · exact ⟨ts, hb, List.sublist_append_left ts us⟩
    · exact (ih ha).mono (List.sublist_append_right ts us)

/-- Each of separated phrases is spelled among their tokens. -/
theorem Separated.among (h : Separated P as us) (ha : a ∈ as) : Among P a us := by
  induction h with
  | @one b ts hb =>
    obtain rfl := List.mem_singleton.mp ha
    exact ⟨ts, hb, List.Sublist.refl ts⟩
  | @more b bs ts us c hb _ _ ih =>
    rcases List.mem_cons.mp ha with rfl | ha
    · exact ⟨ts, hb, List.sublist_append_left ts (c :: us)⟩
    · apply (ih ha).mono
      exact (List.sublist_cons_self c us).trans (List.sublist_append_right ts (c :: us))

/-- Each of bracketed phrases is spelled among their tokens. -/
theorem Bracketed.among (h : Bracketed P as us) (ha : a ∈ as) : Among P a us := by
  cases h with
  | none => cases ha
  | @some _ ts o c _ has _ =>
    apply (has.among ha).mono
    exact (List.sublist_append_left ts [c]).cons o

end Phrase

namespace Expr.Spelled

variable {e a : Expr} {us : List Token}

/-- The arguments of an expression are spelled among its tokens. -/
theorem among_of_arg (h : e.Spelled us) (ha : a ∈ e.args) : Among Expr.Spelled a us := by
  cases h with
  | bare => cases ha
  | @applied w es ts _ hes => exact (hes.among ha).mono (List.sublist_cons_self w ts)

/-- What can be spelled is made of words. -/
theorem wellFormed (h : e.Spelled us) : e.WellFormed := by
  induction e generalizing us with
  | node w es ih =>
    refine .node ?_ fun a ha => ?_
    · cases h with
      | bare hw => exact hw
      | applied hw _ => exact hw
    · obtain ⟨vs, hvs, -⟩ := h.among_of_arg ha
      exact ih a ha hvs

end Expr.Spelled

/-- The expressions of a declaration that are not arguments of others. -/
def Decl.exprs : Decl → List Expr
  | .types _ | .term _ _ _ _ => []
  | .postulate s => s.clauses.conclusions ++ s.clauses.hypotheses
  | .thm s proof => s.clauses.conclusions ++ s.clauses.hypotheses ++ proof

/-- The expressions of a declaration. -/
inductive Decl.Uses (d : Decl) : Expr → Prop
  | whole {e : Expr} (h : e ∈ d.exprs) : Uses d e
  | arg {e a : Expr} (h : Uses d e) (ha : a ∈ e.args) : Uses d a

section

variable {us : List Token} {e : Expr}

/-- The expressions of clauses are spelled among their tokens. -/
theorem Clauses.Spelled.among {cs : Clauses} (h : cs.Spelled us)
    (he : e ∈ cs.conclusions ++ cs.hypotheses) : Among Expr.Spelled e us := by
  -- A clause of expressions in front of others, wherever it puts them.
  have hclause {es : List Expr} {k : Token} {us ts : List Token} (hes : Many Expr.Spelled es us)
      (he : e ∈ es ∨ Among Expr.Spelled e ts) : Among Expr.Spelled e (k :: (us ++ ts)) := by
    rcases he with he | he
    · exact (hes.among he).mono ((List.sublist_append_left us ts).cons k)
    · exact he.mono ((List.sublist_append_right us ts).cons k)
  induction h with
  | nil => cases he
  | @separate cs k group ts _ _ _ ih =>
    exact (ih he).mono ((List.sublist_append_right group ts).cons k)
  | assume _ hes _ ih =>
    apply hclause hes
    rw [List.mem_append, List.mem_append] at he
    rcases he with he | he | he
    · exact .inr (ih (List.mem_append_left _ he))
    · exact .inl he
    · exact .inr (ih (List.mem_append_right _ he))
  | conclude _ hes _ ih =>
    apply hclause hes
    rw [List.append_assoc, List.mem_append] at he
    exact he.imp_right ih

/-- The expressions of a statement are spelled among its tokens. -/
theorem Statement.Spelled.among {s : Statement} (h : s.Spelled us)
    (he : e ∈ s.clauses.conclusions ++ s.clauses.hypotheses) : Among Expr.Spelled e us := by
  cases h with
  | @mk name o c params cs ps ts _ _ _ hcs _ =>
    apply (hcs.among he).mono
    have hbraces : ts.Sublist (o :: (ts ++ [c])) := (List.sublist_append_left ts [c]).cons o
    exact (hbraces.trans (List.sublist_append_right ps _)).cons name

/-- The expressions of a declaration are spelled among its tokens. -/
theorem Decl.Spelled.among {d : Decl} (h : d.Spelled us) (he : d.Uses e) :
    Among Expr.Spelled e us := by
  induction he with
  | arg _ ha ih =>
    obtain ⟨vs, hvs, hsub⟩ := ih
    exact (hvs.among_of_arg ha).mono hsub
  | @whole e he =>
    cases h with
    | types => cases he
    | term => cases he
    | @postulate k s ts _ hs => exact (hs.among he).mono (List.sublist_cons_self k ts)
    | @thm k eq o c s proof ts us _ hs _ _ hproof _ =>
      rcases List.mem_append.mp he with he | he
      · exact (hs.among he).mono ((List.sublist_append_left ts _).cons k)
      · apply (hproof.among he).mono
        have hbraces : us.Sublist (eq :: o :: (us ++ [c])) :=
          ((List.sublist_append_left us [c]).cons o).cons eq
        exact (hbraces.trans (List.sublist_append_right ts _)).cons k

end

/-- Whatever is wrong with the rest of a text, a declaration is spelled by some of its tokens. -/
theorem Outline.among_of_mem {ts : List Token} {d : Decl} (h : d ∈ (ofTokens ts).decls) :
    Among Decl.Spelled d ts := by
  match ts with
  | [] => simp [ofTokens] at h
  | t :: ts =>
    rw [ofTokens_cons] at h
    split at h
    · rename_i d' rest hd
      have hlt := Reader.consumes_decl _ _ _ hd
      obtain ⟨us, hus, hspelled⟩ := Reader.sound_decl _ _ _ hd
      rw [hus]
      rcases List.mem_cons.mp h with rfl | h
      · exact ⟨us, hspelled, List.sublist_append_left us rest⟩
      · exact (among_of_mem h).mono (List.sublist_append_right us rest)
    · have hsuffix := List.dropWhile_suffix (l := ts) (·.declKind?.isNone)
      have hle := hsuffix.length_le
      exact (among_of_mem h).mono (hsuffix.sublist.cons t)
termination_by ts.length
decreasing_by all_goals simp at *; omega

/-- All expressions that are read from a source are spelled among its tokens, also if there are
errors elsewhere. -/
theorem Source.among_of_uses {s : Source} {d : Decl} (hd : d ∈ s.outline.decls) {e : Expr}
    (he : d.Uses e) : Among Expr.Spelled e s.significant := by
  obtain ⟨us, hus, hsub⟩ := Outline.among_of_mem hd
  exact (hus.among he).mono hsub

/-! ## Words between separators -/

/-- The words among separated expressions are those of the expressions. -/
theorem filter_isWord_separated {es : List Expr} {us : List Token}
    (ih : ∀ e ∈ es, ∀ us, e.Spelled us → us.filter Token.isWord = e.words)
    (h : Separated Expr.Spelled es us) : us.filter Token.isWord = es.flatMap Expr.words := by
  induction h with
  | one he => simpa using ih _ (by simp) _ he
  | @more e es us vs c he hc _ ih' =>
    rw [List.forall_mem_cons] at ih
    rw [List.filter_append, ih.1 us he,
      List.filter_cons_of_neg (by simp [Token.isWord_of_isSymbol hc]), ih' ih.2, List.flatMap_cons]

/-- The words of an expression are the same however it is spelled. -/
theorem Expr.Spelled.filter_isWord {e : Expr} : ∀ us, e.Spelled us →
    us.filter Token.isWord = e.words := by
  induction e with
  | node w es ih =>
    intro us h
    rw [words_node]
    cases h with
    | bare hw => simp [hw]
    | applied hw hes =>
      rw [List.filter_cons_of_pos hw]
      congr 1
      cases hes with
      | none ho hc => simp [Token.isWord_of_isSymbol ho, Token.isWord_of_isSymbol hc]
      | some ho has hc =>
        simp [Token.isWord_of_isSymbol ho, Token.isWord_of_isSymbol hc,
          filter_isWord_separated ih has]

namespace Lexer

/-- A separator may stand in front of anything that is spaced. -/
theorem Spaced.symbol {t : Token} {text : String} (ht : t.isSymbol text) {c : Char}
    (htext : text.toList = [c]) (hc : isSeparator c) {ts : List Token} (hts : Spaced ts) :
    Spaced (t :: ts) := by
  rw [Token.isSymbol, Bool.and_eq_true, beq_iff_eq, beq_iff_eq] at ht
  exact .separator hc ht.1 (ht.2 ▸ htext) hts

/-- Separated expressions are spaced, as there is a comma between any two of them. -/
theorem spaced_separated {es : List Expr} {us rest : List Token}
    (ih : ∀ e ∈ es, ∀ us rest, e.Spelled us → Spaced rest → Reader.seesWord rest = false →
      Spaced (us ++ rest))
    (h : Separated Expr.Spelled es us) (hrest : Spaced rest) (hnext : Reader.seesWord rest = false) :
    Spaced (us ++ rest) := by
  induction h with
  | one he => exact ih _ (by simp) _ _ he hrest hnext
  | more he hc _ ih' =>
    rw [List.forall_mem_cons] at ih
    rw [List.append_assoc, List.cons_append]
    exact ih.1 _ _ he (.symbol hc rfl (by decide) (ih' ih.2)) (Token.isWord_of_isSymbol hc)

/-- No two words of an expression are next to each other. -/
theorem spaced_of_spelled (e : Expr) : ∀ us rest, e.Spelled us → Spaced rest →
    Reader.seesWord rest = false → Spaced (us ++ rest) := by
  induction e with
  | node w es ih =>
    intro us rest h hrest hnext
    cases h with
    | bare hw => exact .word hw hnext hrest
    | applied hw hes =>
      cases hes with
      | none ho hc =>
        refine .word hw (Token.isWord_of_isSymbol ho) (.symbol ho rfl (by decide) ?_)
        exact .symbol hc rfl (by decide) hrest
      | some ho has hc =>
        rw [List.cons_append, List.cons_append, List.append_assoc]
        refine .word hw (Token.isWord_of_isSymbol ho) (.symbol ho rfl (by decide) ?_)
        exact spaced_separated ih has (.symbol hc rfl (by decide) hrest)
          (Token.isWord_of_isSymbol hc)

end Lexer

/-! ## The text of an expression -/

theorem Token.chars_append (ts us : List Token) : chars (ts ++ us) = chars ts ++ chars us :=
  List.flatMap_append

/-- Tokens with commas between them are written with commas between them. -/
theorem Token.chars_intercalate (tss : List (List Token)) :
    chars ([separator Reader.comma].intercalate tss) = [','].intercalate (tss.map chars) := by
  induction tss with
  | nil => rfl
  | cons ts tss ih =>
    cases tss with
    | nil => simp
    | cons us tss =>
      rw [List.intercalate_cons_cons, List.map_cons, List.map_cons, List.intercalate_cons_cons,
        chars_append, chars_append, ih]
      rfl

/-- Tokens in brackets are written like the arguments of a term. -/
theorem Token.chars_bracket {tss : List (List Token)} {texts : List String}
    (h : tss.map chars = texts.map String.toList) (hne : texts ≠ []) :
    chars (bracket tss) = Term.bracketed texts := by
  obtain ⟨text, texts, rfl⟩ := List.exists_cons_of_ne_nil hne
  have hcomma := Term.comma_cons_intercalate text texts
  rw [bracket, chars_cons, chars_append, chars_intercalate, h, Term.bracketed, ← hcomma]
  rfl

/-- What an expression stands for is written like the expression, with as few brackets as possible. -/
theorem Expr.toList_canonical_instantiate {scope : Scope} {params : List Param} {e : Expr} {t : Term}
    (h : (e.instantiate scope params).1 = some t) : t.canonical.toList = Token.chars e.tokens := by
  induction e generalizing t with
  | node root args ih =>
    rcases instantiate_eq_some_iff.mp h with ⟨p, hp, rfl, rfl⟩ | ⟨-, c, ts, hc, hargs, -, rfl⟩
    · have hname : p.name = root.text := by simpa using List.find?_some hp
      simp [Term.canonical, tokens, hname]
    · have hname : c.name = root.text := (Scope.mem_symbols_of_ctor? hc).2
      have hread : ∀ e ∈ args, (e.instantiate scope params).1.map (·.canonical.toList) =
          some (Token.chars e.tokens) := by
        intro e he
        have hmem : (e.instantiate scope params).1 ∈ ts.map some := hargs ▸ List.mem_map_of_mem he
        obtain ⟨u, -, hu⟩ := List.mem_map.mp hmem
        rw [← hu, Option.map_some, ih e he hu.symm]
      have htexts : (args.map tokens).map Token.chars = (ts.map Term.canonical).map String.toList := by
        refine (List.map_inj_right fun _ _ => Option.some.inj).mp ?_
        calc
          ((args.map tokens).map Token.chars).map some =
              args.map fun e => (e.instantiate scope params).1.map (·.canonical.toList) := by
            rw [List.map_map, List.map_map]
            exact List.map_congr_left fun e he => (hread e he).symm
          _ = (ts.map some).map (Option.map (·.canonical.toList)) := by rw [← hargs, List.map_map]; rfl
          _ = ((ts.map Term.canonical).map String.toList).map some := by
            rw [List.map_map, List.map_map, List.map_map]
            rfl
      rw [Term.toList_canonical, Term.head, Term.args_app, hname]
      cases args with
      | nil =>
        obtain rfl : ts = [] := by simpa using hargs.symm
        simp [tokens]
      | cons e es =>
        have hne : ts.map Term.canonical ≠ [] := by
          intro hnil
          simp [hnil] at htexts
        rw [tokens, tokensEach_eq_map, Token.chars_cons, Token.chars_bracket htexts hne]

/-! ## Reading it back -/

/-- Leaves it open where a token stands. -/
def Token.nowhere (_ : Token) : Span := default

/-- An expression whose words are legible is read back from its text. -/
theorem Expr.WellFormed.expr_chars {e : Expr} (he : e.WellFormed) (hws : Lexer.Legible e.words)
    {s : Source} (hs : s.chars = Token.chars e.tokens) :
    ∃ e', Reader.expr s.significant = .ok e' [] ∧
      e'.relocate Token.nowhere = e.relocate Token.nowhere := by
  have htokens : (Lexer.tokensFrom 0 (Token.chars e.tokens)).map (Token.relocate Token.nowhere) =
      e.tokens.map (Token.relocate Token.nowhere) := by
    have hspaced := Lexer.spaced_of_spelled e e.tokens [] he.spelled .nil rfl
    rw [List.append_nil] at hspaced
    rw [← he.spelled.filter_isWord] at hws
    exact (hspaced.lexed hws).tokensFrom_chars 0 default
  have hsilent : s.significant = Lexer.tokensFrom 0 (Token.chars e.tokens) := by
    rw [Source.significant, Source.tokens, hs]
    refine List.filter_eq_self.mpr fun t ht => ?_
    have hmem : t.relocate Token.nowhere ∈ e.tokens.map (Token.relocate Token.nowhere) :=
      htokens ▸ List.mem_map_of_mem ht
    obtain ⟨u, hu, heq⟩ := List.mem_map.mp hmem
    have hkind : (u.relocate Token.nowhere).kind = (t.relocate Token.nowhere).kind := by rw [heq]
    rw [Token.kind_relocate, Token.kind_relocate] at hkind
    have hcomment := he.silent u hu
    simpa [Token.isComment, hkind] using hcomment
  have hread : Reader.expr e.tokens = .ok e [] := by
    simpa using Reader.complete_expr e e.tokens [] he.spelled rfl
  have hmoved := Reader.tracks_expr (f := Token.nowhere) (Lexer.tokensFrom 0 (Token.chars e.tokens))
  rw [htokens, Reader.tracks_expr e.tokens, hread] at hmoved
  rw [hsilent]
  cases hr : Reader.expr (Lexer.tokensFrom 0 (Token.chars e.tokens)) with
  | error cause rest => simp [hr] at hmoved
  | ok e' rest =>
    rw [hr] at hmoved
    simp only [Reading.relocate_ok, List.map_nil, Reading.ok.injEq] at hmoved
    obtain rfl : rest = [] := by simpa using hmoved.2.symm
    exact ⟨e', rfl, hmoved.1.symm⟩

/-- The canonical text of a term that an expression of some file stands for is again an expression for
it, under the same parameters in the same scope. -/
theorem Source.expr_of_canonical {s : Source} {d : Decl} (hd : d ∈ s.outline.decls) {e : Expr}
    (he : d.Uses e) {scope : Scope} {params : List Param} {t : Term}
    (ht : e.instantiate scope params = (some t, [])) (name : String) :
    ∃ e', Reader.expr (Source.ofText name t.canonical).significant = .ok e' [] ∧
      e'.instantiate scope params = (some t, []) := by
  obtain ⟨us, hus, hsub⟩ := among_of_uses hd he
  have hws : Lexer.Legible e.words := by
    rw [← hus.filter_isWord]
    have htokens : (us.filter Token.isWord).Sublist s.tokens :=
      List.filter_sublist.trans (hsub.trans List.filter_sublist)
    exact s.decomposes_tokens.legible htokens fun w hw => (List.mem_filter.mp hw).2
  have hchars := Expr.toList_canonical_instantiate (congrArg Prod.fst ht)
  obtain ⟨e', hread, hmoved⟩ := hus.wellFormed.expr_chars hws
    ((chars_ofText name t.canonical).trans hchars)
  refine ⟨e', hread, ?_⟩
  have hfst : (e'.instantiate scope params).1 = some t := by
    have hmoved' := congrArg (Expr.instantiate scope params) hmoved
    rw [Expr.instantiate_relocate, Expr.instantiate_relocate, ht] at hmoved'
    exact congrArg Prod.fst hmoved'
  exact Prod.ext hfst (Expr.instantiate_snd_eq_nil hfst)

/-- The constructor is named like the opening of a comment. -/
theorem Source.expr_of_canonical_unclosed_comment :
    let s := Source.ofText "pairs"
      "type P term P /*(P a, P b) \x7b a b \x7d axiom r(P a) \x7b |- /*( a , /*(a, a) ) \x7d"
    let scope : Scope := { table := (s.compile []).table }
    ∃ d ∈ s.outline.decls, ∃ e, d.Uses e ∧
      ∃ t, e.instantiate scope [⟨"P", "a"⟩] = (some t, []) ∧ t.canonical = "/*(a,/*(a,a))" ∧
        ∃ e', Reader.expr (Source.ofText "term" "/*(a,/*(a,a))").significant = .ok e' [] ∧
          e'.instantiate scope [⟨"P", "a"⟩] = (some t, []) := by
  intro s scope
  obtain ⟨d, hd, hview⟩ := Option.bind_eq_some_iff.mp <| show
    (s.outline.decls[2]?.bind fun d => d.exprs[0]?.bind fun e =>
      (e.instantiate scope [⟨"P", "a"⟩]).1.map Term.canonical) = some "/*(a,/*(a,a))" by
    decide +kernel
  obtain ⟨e, he, hview⟩ := Option.bind_eq_some_iff.mp hview
  obtain ⟨t, hfst, hcanonical⟩ := Option.map_eq_some_iff.mp hview
  have ht : e.instantiate scope [⟨"P", "a"⟩] = (some t, []) :=
    Prod.ext hfst (Expr.instantiate_snd_eq_nil hfst)
  have hd' : d ∈ s.outline.decls := List.mem_of_getElem? hd
  have he' : d.Uses e := .whole (List.mem_of_getElem? he)
  have hread := Source.expr_of_canonical hd' he' ht "term"
  rw [hcanonical] at hread
  exact ⟨d, hd', e, he', t, ht, hcanonical, hread⟩

end Axiomata
