import Axiomata.Decl.Parser
import Mathlib.Data.List.TakeWhile

/-!
# Names are made of word characters

No blank and no separator occurs in a word or a keyword, and the names of a declaration are words, or
the keyword that is turned down later. Whatever a declaration that was read from a text calls
something can therefore be told from what stands beside it (`Decl.Written.named`).

`Reader.Yields` is the contract that carries a property of tokens from the text to what is read from
it.
-/

namespace Axiomata

/-- No blank and no separator occurs in the text. -/
def Token.Plain (t : Token) : Prop := ∀ c ∈ t.text.toList, Lexer.isWordChar c

instance (t : Token) : Decidable t.Plain :=
  decidable_of_iff (t.text.toList.all Lexer.isWordChar) List.all_eq_true

/-! ## Tokens -/

namespace Lexer

/-- What the lexer takes for a word or a keyword is made of word characters. -/
theorem isWordChar_of_mem_lexeme {c : Char} {cs : List Char} (hc : isBlank c = false)
    (hkind : (lexeme c cs).1 = .word ∨ (lexeme c cs).1 = .keyword) :
    ∀ x ∈ (lexeme c cs).2.1, isWordChar x := by
  unfold lexeme at hkind ⊢
  split at hkind
  · simp at hkind
  · split at hkind
    · simp at hkind
    · intro x hx
      rename_i hsep
      simp only [hsep, List.mem_cons, Bool.false_eq_true, ↓reduceIte] at hx
      rcases hx with rfl | hx
      · simp [isWordChar, hc, hsep]
      · exact List.mem_takeWhile_imp hx

/-- The words and keywords of a text are made of word characters. -/
theorem plain_of_mem_tokensFrom {offset : Nat} {cs : List Char} {t : Token}
    (ht : t ∈ tokensFrom offset cs) (hkind : t.isWord ∨ t.isKeyword) : t.Plain := by
  fun_induction tokensFrom offset cs with
  | case1 => simp at ht
  | case2 offset c cs hblank ih => exact ih ht
  | case3 offset c cs hblank stop ih =>
    rcases List.mem_cons.mp ht with rfl | ht
    · intro x hx
      simp only [String.toList_ofList] at hx
      refine isWordChar_of_mem_lexeme (by simpa using hblank) ?_ x hx
      simpa [Token.isWord, Token.isKeyword] using hkind
    · exact ih ht

end Lexer

/-! ## What is read from tokens -/

/-- A name, given what holds of all tokens. -/
structure Token.NameOf (K : Token → Prop) (t : Token) : Prop where
  token : K t
  name : t.isName

/-- The names of a parameter and of its type, given what holds of all tokens. -/
structure ParamDecl.Named (K : Token → Prop) (p : ParamDecl) : Prop where
  type : p.type.NameOf K
  name : p.name.NameOf K

structure Statement.Named (K : Token → Prop) (s : Statement) : Prop where
  name : s.name.NameOf K
  params : ∀ p ∈ s.params, p.Named K

/-- The names that a declaration gives to something, given what holds of all tokens. -/
def Decl.Named (K : Token → Prop) : Decl → Prop
  | .types names => ∀ t ∈ names, t.NameOf K
  | .term _ name params _ => name.NameOf K ∧ ∀ p ∈ params, p.Named K
  | .postulate s | .thm s _ => s.Named K

namespace Reader

variable {α β : Type} {K : Token → Prop} {Q : α → Prop}

/-- A reader of tokens with one property that gives values with another. -/
def Yields (K : Token → Prop) (Q : α → Prop) (p : Reader α) : Prop :=
  ∀ ts a rest, (∀ t ∈ ts, K t) → p ts = .ok a rest → Q a ∧ ∀ t ∈ rest, K t

/-- What is given is yielded. -/
theorem yields_pure {a : α} (h : Q a) : Yields K Q (pure a : Reader α) := by
  intro ts b rest hts hb
  cases hb
  exact ⟨h, hts⟩

/-- A reader may rely on what the one in front of it yields. -/
theorem Yields.bind {p : Reader α} {f : α → Reader β} {R : β → Prop} (hp : Yields K Q p)
    (hf : ∀ a, Q a → Yields K R (f a)) : Yields K R (p >>= f) := by
  intro ts b rest hts h
  rw [bind_apply] at h
  cases hr : p ts with
  | ok a mid =>
    rw [hr, Reading.bind_ok] at h
    obtain ⟨ha, hmid⟩ := hp ts a mid hts hr
    exact hf a ha mid b rest hmid h
  | error e mid => simp [hr] at h

/-- A token that is demanded is one of the tokens, and passes the test. -/
theorem yields_demand (wanted : Expectation) (test : Token → Bool) :
    Yields K (fun t => K t ∧ test t) (demand wanted test) := by
  intro ts a rest hts h
  cases ts with
  | nil => simp [demand] at h
  | cons t ts =>
    rw [List.forall_mem_cons] at hts
    rw [demand] at h
    split at h
    · cases h
      exact ⟨⟨hts.1, ‹_›⟩, hts.2⟩
    · simp at h

/-- A name is one of the tokens. -/
theorem yields_name : Yields K (Token.NameOf K) name :=
  fun ts a rest hts h =>
    have hd := yields_demand _ _ ts a rest hts h
    ⟨⟨hd.1.1, hd.1.2⟩, hd.2⟩

/-- A word is a name. -/
theorem yields_word : Yields K (Token.NameOf K) word :=
  fun ts a rest hts h =>
    have hd := yields_demand _ _ ts a rest hts h
    ⟨⟨hd.1.1, by simp [Token.isName, hd.1.2]⟩, hd.2⟩

theorem yields_symbol (text : String) : Yields K (fun _ => True) (symbol text) :=
  fun ts a rest hts h => ⟨trivial, (yields_demand _ _ ts a rest hts h).2⟩

theorem yields_exactly (text : String) : Yields K (fun _ => True) (exactly text) :=
  fun ts a rest hts h => ⟨trivial, (yields_demand _ _ ts a rest hts h).2⟩

mutual

/-- An expression leaves tokens that were there. The proof goes along with `mem_of_resume`, as the
readers do. -/
theorem mem_of_exprWithin (stack : List Frame) (ts : List Token) {e : Expr} {rest : List Token}
    (h : exprWithin stack ts = .ok e rest) : rest ⊆ ts := by
  match ts with
  | [] => simp [exprWithin] at h
  | t :: ts =>
    rw [exprWithin] at h
    split at h
    · split at h
      · split at h
        · exact List.subset_cons_of_subset t
            (List.Subset.trans (mem_of_resume stack _ _ h) (List.drop_subset 2 ts))
        · exact List.subset_cons_of_subset t
            (List.Subset.trans (mem_of_exprWithin _ _ h) (List.drop_subset 1 ts))
      · exact List.subset_cons_of_subset t (mem_of_resume stack _ _ h)
    · simp at h
termination_by ts.length

/-- Going on with open applications leaves tokens that were there. -/
theorem mem_of_resume (stack : List Frame) (e : Expr) (ts : List Token) {e' : Expr}
    {rest : List Token} (h : resume stack e ts = .ok e' rest) : rest ⊆ ts := by
  match stack, ts with
  | [], ts =>
    simp [resume] at h
    simp [h.2]
  | _ :: _, [] => simp [resume] at h
  | f :: stack, t :: ts =>
    rw [resume] at h
    split at h
    · exact List.subset_cons_of_subset t (mem_of_exprWithin _ _ h)
    · split at h
      · exact List.subset_cons_of_subset t (mem_of_resume _ _ _ h)
      · simp at h
termination_by ts.length

end

/-- Nothing is said of expressions but that they leave tokens that were there. -/
theorem yields_exprs : Yields K (fun _ => True) exprs := by
  intro ts es rest hts h
  refine ⟨trivial, ?_⟩
  fun_induction exprs ts generalizing es with
  | case1 => simp at h
  | case2 ts _ e mid hmid ih =>
    obtain ⟨es', hes, -⟩ := Reading.map_eq_ok h
    exact ih es' (fun t ht => hts t (mem_of_exprWithin [] ts hmid ht)) hes
  | case3 =>
    simp at h
    exact h.2 ▸ hts

/-- The type and the name of a parameter are among the tokens. -/
theorem yields_param : Yields K (ParamDecl.Named K) param :=
  yields_word.bind fun _ htype => yields_word.bind fun _ hname => yields_pure ⟨htype, hname⟩

/-- The types and names of parameters are among the tokens. -/
theorem yields_paramsFrom : Yields K (fun ps => ∀ p ∈ ps, ParamDecl.Named K p) paramsFrom := by
  intro ts ps rest hts h
  fun_induction paramsFrom ts generalizing ps with
  | case1 => simp at h
  | case2 ts p mid hmid _ ih =>
    obtain ⟨ps', hps, rfl⟩ := Reading.map_eq_ok h
    obtain ⟨hp, hrest⟩ := yields_param ts p mid hts hmid
    obtain ⟨hps', hrest'⟩ := ih ps' (fun t ht => hrest t (List.mem_of_mem_drop ht)) hps
    exact ⟨List.forall_mem_cons.mpr ⟨hp, hps'⟩, hrest'⟩
  | case3 ts p mid hmid =>
    obtain ⟨t, ht, rfl⟩ := Reading.map_eq_ok h
    obtain ⟨hp, hrest⟩ := yields_param ts p mid hts hmid
    exact ⟨by simpa using hp, (yields_symbol closeParen mid t rest hrest ht).2⟩

/-- So they are with brackets around them. -/
theorem yields_params : Yields K (fun ps => ∀ p ∈ ps, ParamDecl.Named K p) params := by
  refine (yields_symbol openParen).bind fun _ _ ts ps rest hts h => ?_
  split at h
  · cases h
    exact ⟨by simp, fun t ht => hts t (List.mem_of_mem_drop ht)⟩
  · exact yields_paramsFrom ts ps rest hts h

/-- Nothing is said of clauses but that they leave tokens that were there. -/
theorem yields_clauses : Yields K (fun _ => True) clauses := by
  intro ts c rest hts h
  refine ⟨trivial, ?_⟩
  fun_induction clauses ts generalizing c with
  | case1 => simp at h
  | case2 t ts =>
    cases h
    exact (List.forall_mem_cons.mp hts).2
  | case3 => simp at h
  | case4 t ts _ _ _ ih =>
    obtain ⟨c', hc, -⟩ := Reading.map_eq_ok h
    refine ih c' (fun u hu => ?_) hc
    exact hts u (List.mem_cons_of_mem t ((List.dropWhile_suffix Token.isWord).subset hu))
  | case5 => simp at h
  | case6 t ts _ _ _ _ es mid hmid ih =>
    obtain ⟨c', hc, -⟩ := Reading.map_eq_ok h
    exact ih c' (yields_exprs ts es mid (List.forall_mem_cons.mp hts).2 hmid).2 hc
  | case7 => simp at h
  | case8 t ts _ _ _ _ _ es mid hmid ih =>
    obtain ⟨c', hc, -⟩ := Reading.map_eq_ok h
    exact ih c' (yields_exprs ts es mid (List.forall_mem_cons.mp hts).2 hmid).2 hc
  | case9 => simp at h

/-- Nothing is said of a body but that it leaves tokens that were there. -/
theorem yields_body : Yields K (fun _ => True) body := by
  intro ts b rest hts h
  refine ⟨trivial, ?_⟩
  fun_induction body ts generalizing b with
  | case1 => simp at h
  | case2 t ts =>
    cases h
    exact (List.forall_mem_cons.mp hts).2
  | case3 => simp at h
  | case4 t ts _ _ ih =>
    obtain ⟨b', hb, -⟩ := Reading.map_eq_ok h
    exact ih b' (List.forall_mem_cons.mp hts).2 hb

/-- The names of types are among the tokens. -/
theorem yields_typeNames (opener : Token) : Yields K (Decl.Named K) (typeNames opener) := by
  intro ts d rest hts h
  unfold typeNames at h
  split at h
  · simp at h
  · cases h
    refine ⟨fun t ht => ⟨hts t ?_, ?_⟩, fun t ht => hts t ?_⟩
    · exact (List.takeWhile_prefix Token.isWord).subset ht
    · simp [Token.isName, List.mem_takeWhile_imp ht]
    · exact (List.dropWhile_suffix Token.isWord).subset ht

/-- The names of a constructor and of its parameters are among the tokens. -/
theorem yields_termDecl : Yields K (Decl.Named K) termDecl :=
  yields_word.bind fun _ _ => yields_name.bind fun _ hname => yields_params.bind fun _ hparams =>
    (yields_symbol openBrace).bind fun _ _ => yields_body.bind fun _ _ =>
      yields_pure ⟨hname, hparams⟩

/-- The names of a statement and of its parameters are among the tokens. -/
theorem yields_statement : Yields K (Statement.Named K) statement :=
  yields_name.bind fun _ hname => yields_params.bind fun _ hparams =>
    (yields_symbol openBrace).bind fun _ _ => yields_clauses.bind fun _ _ =>
      yields_pure ⟨hname, hparams⟩

theorem yields_thmDecl : Yields K (Decl.Named K) thmDecl :=
  yields_statement.bind fun _ hs => (yields_exactly "=").bind fun _ _ =>
    (yields_symbol openBrace).bind fun _ _ => yields_exprs.bind fun _ _ =>
      (yields_symbol closeBrace).bind fun _ _ => yields_pure hs

/-- All names that a declaration introduces are among the tokens. -/
theorem yields_decl : Yields K (Decl.Named K) decl := by
  refine (yields_demand .keyword Token.isKeyword).bind fun opener _ => ?_
  split
  · exact yields_typeNames opener
  · exact yields_termDecl
  · exact yields_statement.bind fun _ hs => yields_pure hs
  · exact yields_thmDecl
  · intro ts d rest hts h
    simp at h

end Reader

/-- All names that a file introduces are among its tokens, however many declarations could not be
read. -/
theorem Outline.named_of_mem {K : Token → Prop} {ts : List Token} (hts : ∀ t ∈ ts, K t) {d : Decl}
    (hd : d ∈ (ofTokens ts).decls) : d.Named K := by
  fun_induction ofTokens ts with
  | case1 => simp at hd
  | case2 t ts first rest hfirst ih =>
    obtain ⟨hnamed, hrest⟩ := Reader.yields_decl _ first rest hts hfirst
    rcases List.mem_cons.mp hd with rfl | hd
    · exact hnamed
    · exact ih hrest hd
  | case3 t ts cause rest _ ih =>
    refine ih (fun u hu => ?_) hd
    exact hts u (List.mem_cons_of_mem t ((List.dropWhile_suffix _).subset hu))

/-! ## Declarations of a text -/

theorem Token.NameOf.mono {K L : Token → Prop} (h : ∀ t, t.isName → K t → L t) {t : Token}
    (ht : t.NameOf K) : t.NameOf L :=
  ⟨h t ht.name ht.token, ht.name⟩

theorem ParamDecl.Named.mono {K L : Token → Prop} (h : ∀ t, t.isName → K t → L t) {p : ParamDecl}
    (hp : p.Named K) : p.Named L :=
  ⟨hp.type.mono h, hp.name.mono h⟩

/-- What is known of names may be weakened to what follows for names. -/
theorem Decl.Named.mono {K L : Token → Prop} (h : ∀ t, t.isName → K t → L t) {d : Decl}
    (hd : d.Named K) : d.Named L := by
  cases d with
  | types names => exact fun t ht => (hd t ht).mono h
  | term type name params body => exact ⟨hd.1.mono h, fun p hp => (hd.2 p hp).mono h⟩
  | postulate s => exact ⟨hd.name.mono h, fun p hp => (hd.params p hp).mono h⟩
  | thm s proof => exact ⟨hd.name.mono h, fun p hp => (hd.params p hp).mono h⟩

/-- A declaration that is read from some text. -/
def Decl.Written (d : Decl) : Prop := ∃ s : Source, d ∈ s.outline.decls

/-- A name is a word or the keyword that is turned down later. -/
theorem Token.isWord_or_isKeyword {t : Token} (h : t.isName) : t.isWord ∨ t.isKeyword := by
  simp only [isName, Bool.or_eq_true, Bool.and_eq_true] at h
  exact h.imp_right And.left

/-- The names in a text are made of word characters. -/
theorem Source.plain_of_mem_tokens {s : Source} {t : Token} (ht : t ∈ s.tokens) (h : t.isName) :
    t.Plain :=
  Lexer.plain_of_mem_tokensFrom ht (Token.isWord_or_isKeyword h)

/-- What is declared in a text has a name of word characters. -/
theorem Decl.Written.named {d : Decl} (h : d.Written) : d.Named Token.Plain := by
  obtain ⟨s, hd⟩ := h
  have hmem : d.Named (· ∈ s.tokens) :=
    Outline.named_of_mem (fun t ht => (List.mem_filter.mp ht).1) hd
  exact hmem.mono fun t hname ht => s.plain_of_mem_tokens ht hname

end Axiomata
